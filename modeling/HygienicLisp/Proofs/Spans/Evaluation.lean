import HygienicLisp.Proofs.Isolation.Consistency
import HygienicLisp.Proofs.Spans.Primitives

/-!
# Evaluation copies ranges

What evaluation stores comes from the code and from what is stored already.  A failure gets the range
of a call, of a free name or of a definition, all of which are ranges in the code.

Main statements: `copies_step` for one step, and `copies_eval` for any number of steps.
-/

namespace HygienicLisp

variable {given : Source → Prop}

/-! ## Frames -/

theorem World.Traced.pushFrame {w : World} (h : w.Traced given) {slots : Array (Option Value)}
    (hslots : ∀ (slot : Nat) (v : Value), slots[slot]? = some (some v) → v.Traced given)
    (parent : Option Nat) :
    ({ w with frames := w.frames.push ⟨slots, parent⟩ } : World).Traced given :=
  { h with frames := fun _ _ hf _ _ => forall_frames_push h.frames hslots hf }

theorem copies_pushFrame {slots : Array (Option Value)} (env : Env)
    (hslots : ∀ (slot : Nat) (v : Value), slots[slot]? = some (some v) → v.Traced given) :
    Copies given (fun _ => True) (pushFrame env slots) :=
  .modifyGet fun _ hw => ⟨hw.pushFrame hslots env.frame, trivial⟩

theorem copies_frameAt (env : Env) (depth : Nat) :
    Copies given (fun _ => True) (frameAt env depth) := by
  refine .get_bind fun w _ => ?_
  split
  · exact .pure trivial
  · exact .failOf _

theorem copies_getLocal (env : Env) (depth slot : Nat) (name : String) :
    Copies given (Value.Traced given) (getLocal env depth slot name) := by
  refine (copies_frameAt env depth).bind fun frame _ => .get_bind fun w hw => ?_
  split
  · rename_i v hv
    obtain ⟨f, hf, hslot⟩ := Option.bind_eq_some_iff.1 hv
    exact .pure (hw.frames frame f hf slot v hslot)
  · exact .failOf _
  · exact .failOf _

theorem World.Traced.setSlot {w : World} (h : w.Traced given) {v : Value} (hv : v.Traced given)
    (frame slot : Nat) :
    ({ w with frames := w.frames.modify frame fun f =>
      { f with slots := f.slots.setIfInBounds slot (some v) } } : World).Traced given :=
  { h with frames := fun _ _ hf _ _ => forall_frames_setSlot h.frames hv frame slot hf }

theorem copies_setSlot {v : Value} (hv : v.Traced given) (frame slot : Nat) :
    Copies given (fun _ => True) (setSlot frame slot v) := by
  refine .get_bind fun w _ => ?_
  cases w.frames[frame]? with
  | none => exact .failOf _
  | some f =>
      dsimp only
      split
      · exact .modify fun w hw => hw.setSlot hv frame slot
      · exact .failOf _

/-! ## Namespaces -/

theorem World.Traced.reports_valueAt {w : World} (h : w.Traced given) (ns : NamespaceId)
    (address : Nat) (name : String) :
    Reports given (Value.Traced given) (w.spaces.valueAt ns address name) := by
  have hvalues := h.values ns address
  rw [Spaces.value?] at hvalues
  rw [Spaces.valueAt]
  cases hspace : w.spaces[ns]? with
  | none => exact .of _
  | some space =>
      rw [hspace] at hvalues
      change Reports given _ (space.valueAt address name)
      rw [Namespace.valueAt]
      cases hv : space.value? address with
      | none => exact .of _
      | some v => exact hvalues v hv

theorem World.Traced.reports_lookupImport {w : World} (h : w.Traced given) (ns : NamespaceId)
    (id address : Nat) (name : String) :
    Reports given (Value.Traced given) (w.spaces.lookupImport ns id address name) := by
  rw [Spaces.lookupImport]
  split
  · exact .of _
  · split
    · exact h.reports_valueAt _ address name
    · exact .of _

theorem World.Traced.reports_lookupName {w : World} (h : w.Traced given) (ns : NamespaceId)
    (name : String) : Reports given (Value.Traced given) (w.spaces.lookupName ns name) := by
  rw [Spaces.lookupName]
  split
  · exact .of _
  · split
    · exact .of _
    · exact h.reports_valueAt _ _ name

/-- A change of the namespaces that stores values with ranges from the given sources only. -/
theorem World.Traced.change {w : World} (h : w.Traced given) {target : Definition → Prop}
    {spaces : Spaces}
    (hchange : w.spaces.Change target (fun _ v => v.Traced given) spaces) :
    ({ w with spaces } : World).Traced given := by
  refine { h with values := fun ns address v hv => ?_ }
  rcases hchange.value? ns address with hsame | ⟨v', hv', hstored⟩
  · exact h.values ns address v (hsame.symm.trans hv)
  · cases hstored.symm.trans hv
    exact hv'

theorem copies_setValue {v : Value} (hv : v.Traced given) (ns : NamespaceId) (address : Nat) :
    Copies given (fun _ => True) (setValue ns address v) := by
  refine .modify fun w hw => ?_
  have hstores : w.spaces.setValue ns address v = w.spaces ∨ w.spaces.Change (fun _ => True)
      (fun _ v => v.Traced given) (w.spaces.setValue ns address v) :=
    Spaces.change_setValue w.spaces hv
  rcases hstores with hsame | hchange
  · rw [hsame]
    exact hw
  · exact hw.change hchange

theorem copies_inferName (v : Value) (name : String) :
    Copies given (fun _ => True) (inferName v name) :=
  .modify fun _ hw => hw.congr rfl rfl rfl rfl rfl

/-! ## Application -/

/-- The ranges of what a step leads to come from the given sources. -/
def Next.Traced (given : Source → Prop) : Next → Prop
  | .value v => v.Traced given
  | .tail code _ => code.Traced given

theorem Arity.reports_check (a : Arity) (who : String) (count : Nat) :
    Reports given (fun _ => True) (a.check who count) := by
  rw [check]
  split
  · exact trivial
  · exact .of _

theorem copies_applyStep {procedure : Value} {args : List Value}
    (hprocedure : procedure.Traced given) (hargs : ∀ v ∈ args, v.Traced given) :
    Copies given (Next.Traced given) (applyStep procedure args) := by
  cases hprocedure with
  | procedure hp =>
      refine .get_bind fun w _ => (Copies.ofExcept (Arity.reports_check _ _ _)).bind fun _ _ => ?_
      cases hp with
      | native => exact (Primitive.copies_call hargs _).bind fun _ hv => .pure hv
      | parameter hdefault =>
          exact .get_bind fun w hw => .pure (forall_parameterValue hw.dynamic hdefault)
      | closure hbody =>
          exact (copies_pushFrame _ (forall_argumentSlots hargs fun _ => .group)).bind
            fun _ _ => .pure hbody
  | _ => exact .get_bind fun _ _ => .failOf _

/-! ## Steps -/

theorem Error.Traced.atCall {call : Syntax} (hcall : call.Traced given) {e : Error}
    (h : e.Traced given) : (atCall call e).Traced given := by
  unfold HygienicLisp.atCall
  split
  · exact h.withContext hcall
  · exact h

theorem Error.Traced.atOrigin {origin : Syntax} (horigin : origin.Traced given) {e : Error}
    (h : e.Traced given) : (atOrigin origin e).Traced given := by
  unfold HygienicLisp.atOrigin
  split
  · exact .atForm horigin _
  · exact h

theorem copies_asTransformer {origin : Syntax} {v : Value} (horigin : origin.Traced given)
    (hv : v.Traced given) : Copies given (Value.Traced given) (asTransformer origin v) := by
  cases hv with
  | procedure hp => exact copies_newTransformer hp _
  | transformer hp => exact .pure (.transformer hp)
  | form => exact .pure .form
  | _ => exact .fail (.atForm horigin _)

section

variable {eval : Code → Env → RunM Value}
  (heval : ∀ {code : Code}, code.Traced given → ∀ env,
    Copies given (Value.Traced given) (eval code env))
include heval

theorem copies_evalAll (env : Env) {codes : List Code} (hcodes : ∀ code ∈ codes, code.Traced given) :
    Copies given (fun vs => ∀ v ∈ vs, v.Traced given) (evalAll eval env codes) := by
  induction codes with
  | nil => exact .pure (by simp)
  | cons code rest ih =>
      obtain ⟨hcode, hrest⟩ := List.forall_mem_cons.1 hcodes
      refine (heval hcode env).bind fun v hv => (ih hrest).bind fun vs hvs => .pure ?_
      exact List.forall_mem_cons.2 ⟨hv, hvs⟩

theorem copies_evalFields (env : Env) {codes : List (String × Code)}
    {fields : List (String × Value)} (hcodes : ∀ field ∈ codes, field.2.Traced given)
    (hfields : ∀ field ∈ fields, field.2.Traced given) :
    Copies given (fun fields => ∀ field ∈ fields, field.2.Traced given)
      (evalFields eval env codes fields) := by
  induction codes generalizing fields with
  | nil => exact .pure hfields
  | cons field rest ih =>
      obtain ⟨hcode, hrest⟩ := List.forall_mem_cons.1 hcodes
      exact (heval hcode env).bind fun v hv => ih hrest (Fields.forall_insert hv hfields)

theorem copies_evalInit (env : Env) {codes : List Code} (hcodes : ∀ code ∈ codes, code.Traced given) :
    Copies given (Next.Traced given) (evalInit eval env codes) := by
  induction codes with
  | nil => exact .pure Value.Traced.void
  | cons code rest ih =>
      obtain ⟨hcode, hrest⟩ := List.forall_mem_cons.1 hcodes
      cases rest with
      | nil => exact .pure hcode
      | cons next rest => exact (heval hcode env).bind fun _ _ => ih hrest

theorem copies_evalSlots (env : Env) (frame slot : Nat) {codes : List Code}
    (hcodes : ∀ code ∈ codes, code.Traced given) :
    Copies given (fun _ => True) (evalSlots eval env frame slot codes) := by
  induction codes generalizing slot with
  | nil => exact .pure trivial
  | cons code rest ih =>
      obtain ⟨hcode, hrest⟩ := List.forall_mem_cons.1 hcodes
      refine (heval hcode env).bind fun v hv => ?_
      exact (copies_setSlot hv frame slot).bind fun _ _ => ih (slot + 1) hrest

theorem copies_evalClauses (env : Env) {bindings : List (Code × Code)}
    (hparameters : ∀ binding ∈ bindings, binding.1.Traced given)
    (hvalues : ∀ binding ∈ bindings, binding.2.Traced given) :
    Copies given (fun clauses => ∀ clause ∈ clauses, clause.2.Traced given)
      (evalClauses eval env bindings) := by
  induction bindings with
  | nil => exact .pure (by simp)
  | cons binding rest ih =>
      obtain ⟨hparameter, hparameters⟩ := List.forall_mem_cons.1 hparameters
      obtain ⟨hvalue, hvalues⟩ := List.forall_mem_cons.1 hvalues
      refine (heval hparameter env).bind fun v _ => ?_
      split
      · refine (heval hvalue env).bind fun v hv => (ih hparameters hvalues).bind fun clauses h => ?_
        exact .pure (List.forall_mem_cons.2 ⟨hv, h⟩)
      · exact .failOf _

/-- One case for each kind of code. -/
theorem copies_step {code : Code} (hcode : code.Traced given) (env : Env) :
    Copies given (Next.Traced given) (step eval code env) := by
  cases hcode with
  | constant hv => exact .pure hv
  | void => exact .pure Value.Traced.void
  | localRef => exact (copies_getLocal env _ _ _).bind fun _ hv => .pure hv
  | topRef =>
      refine .getSpaces_bind fun w hw => ?_
      exact (Copies.ofExcept (hw.reports_valueAt _ _ _)).bind fun _ hv => .pure hv
  | importRef =>
      refine .getSpaces_bind fun w hw => ?_
      exact (Copies.ofExcept (hw.reports_lookupImport _ _ _ _)).bind fun _ hv => .pure hv
  | freeRef horigin =>
      refine .getSpaces_bind fun w hw => ?_
      refine (Copies.mapError (fun _ he => he.atOrigin horigin) ?_).bind fun _ hv => .pure hv
      exact .ofExcept (hw.reports_lookupName _ _)
  | localSet hvalue =>
      refine (heval hvalue env).bind fun v hv => (copies_frameAt env _).bind fun frame _ => ?_
      exact (copies_setSlot hv frame _).bind fun _ _ => .pure Value.Traced.void
  | topSet hvalue =>
      refine (heval hvalue env).bind fun v hv => ?_
      exact (copies_setValue hv _ _).bind fun _ _ => .pure Value.Traced.void
  | define hvalue =>
      refine (heval hvalue env).bind fun v hv => (copies_inferName v _).bind fun _ _ => ?_
      exact (copies_setValue hv _ _).bind fun _ _ => .pure Value.Traced.void
  | defineSyntax hvalue horigin =>
      refine (heval hvalue env).bind fun v hv => ?_
      refine (copies_asTransformer horigin hv).bind fun v hv => ?_
      refine (copies_inferName v _).bind fun _ _ => ?_
      exact (copies_setValue hv _ _).bind fun _ _ => .pure Value.Traced.void
  | branch htest hconsequent halternative =>
      refine (heval htest env).bind fun v _ => .pure ?_
      change Code.Traced given (if v.isTruthy then _ else _)
      split
      · exact hconsequent
      · exact halternative
  | sequence hforms => exact copies_evalInit heval env hforms
  | lambda hbody =>
      exact (copies_newProcedure (.closure hbody) _).bind fun _ hv => .pure hv
  | letIn hinits hbody =>
      refine (copies_evalAll heval env hinits).bind fun vs hvs => ?_
      exact (copies_pushFrame env (forall_slots_map hvs)).bind fun _ _ => .pure hbody
  | @letrec inits body hinits hbody =>
      refine (copies_pushFrame env (forall_slots_replicate inits.length)).bind fun inner _ => ?_
      refine (copies_frameAt inner 0).bind fun frame _ => ?_
      exact (copies_evalSlots heval inner frame 0 hinits).bind fun _ _ => .pure hbody
  | apply hoperator hoperands hcall =>
      refine (heval hoperator env).bind fun procedure hprocedure => ?_
      refine (copies_evalAll heval env hoperands).bind fun args hargs => ?_
      exact .mapError (fun _ he => he.atCall hcall) (copies_applyStep hprocedure hargs)
  | parameterize hparameters hvalues hbody =>
      refine (copies_evalClauses heval env hparameters hvalues).bind fun clauses hclauses => ?_
      refine .get_bind fun _ _ => Copies.bind (.modify fun w hw => ?_) fun _ _ => ?_
      · refine { hw with dynamic := fun p hp => ?_ }
        rcases List.mem_append.1 hp with hp | hp
        · exact hclauses p (List.mem_reverse.1 hp)
        · exact hw.dynamic p hp
      -- The activations are taken back after the body, however it ends.
      · refine ((heval hbody env).andThen fun w hw => ?_).bind fun _ hv => .pure hv
        exact { hw with dynamic := fun p hp => hw.dynamic p (mem_of_mem_truncate hp) }
  | listLiteral helements =>
      exact (copies_evalAll heval env helements).bind fun _ hvs => .pure (.group hvs)
  | recordLiteral hfields =>
      refine (copies_evalFields heval env hfields (by simp)).bind fun fields hfields => ?_
      exact (copies_newRecord hfields).bind fun _ hv => .pure hv

end

/-! ## Evaluation -/

theorem copies_eval (fuel : Nat) {code : Code} (hcode : code.Traced given) (env : Env) :
    Copies given (Value.Traced given) (eval fuel code env) := by
  induction fuel generalizing code env with
  | zero => exact .exhausted
  | succ fuel ih =>
      refine (copies_step (fun hcode env => ih hcode env) hcode env).bind fun next hnext => ?_
      cases next with
      | value v => exact .pure hnext
      | tail code env => exact ih hnext env

theorem copies_applyProcedure (fuel : Nat) {procedure : Value} {args : List Value}
    (hprocedure : procedure.Traced given) (hargs : ∀ v ∈ args, v.Traced given) :
    Copies given (Value.Traced given) (applyProcedure fuel procedure args) := by
  refine (copies_applyStep hprocedure hargs).bind fun next hnext => ?_
  cases next with
  | value v => exact .pure hnext
  | tail code env => exact copies_eval fuel hnext env

end HygienicLisp

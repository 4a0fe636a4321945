import HygienicLisp.Eval
import HygienicLisp.Proofs.Isolation.Guarded

/-!
# Evaluation respects guards

Code that obeys a guard, run in a guarded world, leaves a guarded world, and so does everything that
it applies: primitives give values that are made of their arguments, closures are run in their own
namespaces, and new closures have the code and the namespace of what made them.

Main statements: `respects_step` says this of one step, `respects_eval` of evaluation for any number
of steps, and `respects_applyProcedure` of application.
-/

namespace HygienicLisp

variable {guard : Guard} {w : World}

/-! ## Primitives -/

/-- The result, if there is one, is as given. -/
def IfOk {α : Type} (P : α → Prop) (r : Except Error α) : Prop := ∀ a, r = .ok a → P a

namespace IfOk

variable {α : Type} {P : α → Prop}

theorem ok {a : α} (h : P a) : IfOk P (.ok a) := by
  rintro _ ⟨⟩
  exact h

theorem error (e : Error) : IfOk P (.error e) := nofun

/-- Guards say nothing about failures. -/
theorem of_ends {r : Except Error α} (h : Ends (fun _ => True) P r) : IfOk P r := by
  rintro a rfl
  exact h

theorem respects {r : Except Error α} (h : IfOk P r) :
    Respects guard (fun _ a => P a) (RunM.ofExcept r) w :=
  .ofExcept h

end IfOk

theorem Respects.ofEnds {α : Type} {P : α → Prop} {r : Except Error α}
    (h : Error.Covers (fun _ => True) → Ends (fun _ => True) P r) :
    Respects guard (fun _ a => P a) (RunM.ofExcept r) w :=
  (IfOk.of_ends (h fun _ _ => trivial)).respects

theorem respects_argument {args : List Value} (hargs : ∀ v ∈ args, v.Obeys guard) (position : Nat) :
    Respects guard (fun _ v => v.Obeys guard) (argument args position) w := by
  rw [argument]
  split
  · rename_i hv
    exact .pure (hargs _ (List.mem_of_getElem? hv))
  · exact .fail _

theorem respects_wrongType {α : Type} {P : World → α → Prop} (who expected : String)
    (position : Nat) (found : Value) :
    Respects guard P (wrongType who expected position found) w :=
  .get_bind fun _ => .fail _

theorem respects_syntaxArgument {args : List Value} (hargs : ∀ v ∈ args, v.Obeys guard)
    (position : Nat) (who : String) :
    Respects guard (fun _ _ => True) (syntaxArgument args position who) w := by
  refine (respects_argument hargs position).bind fun v _ _ _ => ?_
  cases v with
  | stx s => exact .pure trivial
  | _ => exact respects_wrongType _ _ _ _

theorem respects_identifierArgument {args : List Value} (hargs : ∀ v ∈ args, v.Obeys guard)
    (position : Nat) (who : String) :
    Respects guard (fun _ _ => True) (identifierArgument args position who) w := by
  refine (respects_argument hargs position).bind fun v _ _ _ => ?_
  cases v with
  | stx s =>
      dsimp only
      split
      · exact .pure trivial
      · exact respects_wrongType _ _ _ _
  | _ => exact respects_wrongType _ _ _ _

theorem respects_mapM_stampSyntax (parts : List Syntax) :
    Respects guard (fun _ _ => True) (parts.mapM stampSyntax) w := by
  induction parts generalizing w with
  | nil =>
      rw [List.mapM_nil]
      exact .pure trivial
  | cons stx rest ih =>
      rw [List.mapM_cons]
      exact (respects_stampSyntax stx).bind fun _ _ _ _ => ih.bind fun _ _ _ _ => .pure trivial

theorem respects_syntaxSubforms {args : List Value} (hargs : ∀ v ∈ args, v.Obeys guard) :
    Respects guard (fun _ v => v.Obeys guard) (syntaxSubforms args) w := by
  refine (respects_syntaxArgument hargs 0 _).bind fun stx _ _ _ => ?_
  split
  · exact respects_wrongType _ _ _ _
  · refine (respects_mapM_stampSyntax _).bind fun parts _ _ _ => .pure (.group fun v hv => ?_)
    obtain ⟨stx, -, rfl⟩ := List.mem_map.1 hv
    exact .stx

theorem respects_datumToSyntax {args : List Value} (hargs : ∀ v ∈ args, v.Obeys guard) :
    Respects guard (fun _ v => v.Obeys guard) (datumToSyntax args) w := by
  have hcontext {w : World} : Respects guard (fun _ _ => True) (contextArgument args) w := by
    unfold contextArgument
    split
    · exact .pure trivial
    · exact respects_wrongType _ _ _ _
    · exact .pure trivial
  refine (respects_argument hargs 0).bind fun datum _ _ _ => hcontext.bind fun context _ _ _ => ?_
  refine Respects.bind (P := fun _ _ => True) (.ofExcept fun _ _ => trivial) fun stx _ _ _ => ?_
  exact (respects_stampSyntax stx).bind fun _ _ _ _ => .pure .stx

/-- A primitive gives data, or a value that is made of its arguments. -/
theorem Primitive.respects_call (p : Primitive) {args : List Value}
    (hargs : ∀ v ∈ args, v.Obeys guard) :
    Respects guard (fun _ v => v.Obeys guard) (p.call args) w := by
  have hargument {w : World} (position : Nat) :
      Respects guard (fun _ v => v.Obeys guard) (argument args position) w :=
    respects_argument hargs position
  refine .get_bind fun _ => ?_
  cases p with
  | add => exact .ofEnds fun hE => Value.byParts_obeys.add hE _ _
  | sub => exact .ofEnds fun hE => Value.byParts_obeys.sub hE _ _
  | mul => exact .ofEnds fun hE => Value.byParts_obeys.mul hE _ _
  | div => exact .ofEnds fun hE => Value.byParts_obeys.div hE _ _
  | equal => exact .pure .atom
  | less | greater | lessEqual | greaterEqual =>
      exact .ofEnds fun hE => Value.byParts_obeys.compare hE _ _ _ _
  | not => exact (hargument 0).bind fun _ _ _ _ => .pure .atom
  | list | sexp => exact .pure (.group hargs)
  | struct =>
      exact (Respects.ofEnds fun hE => Value.ByParts.structFields hE hargs).bind
        fun _ _ _ hfields => respects_newRecord hfields
  | size =>
      exact (hargument 0).bind fun _ _ _ _ => .ofEnds fun hE => Value.byParts_obeys.size hE _ _
  | elt =>
      exact (hargument 0).bind fun _ _ _ hv => (hargument 1).bind fun _ _ _ _ =>
        .ofEnds fun hE => Value.byParts_obeys.elt hE hv
  | head =>
      exact (hargument 0).bind fun _ _ _ hv => .ofEnds fun hE => Value.byParts_obeys.head hE hv
  | tail =>
      exact (hargument 0).bind fun _ _ _ hv => .ofEnds fun hE => Value.byParts_obeys.tail hE hv
  | isEmpty =>
      exact (hargument 0).bind fun _ _ _ _ => .ofEnds fun hE => Value.byParts_obeys.isEmpty hE _ _
  | isNull | isVoid | isIdentifier =>
      refine (hargument 0).bind fun v _ _ _ => ?_
      split <;> exact .pure .atom
  | void => exact .pure .void
  | error => exact .fail _
  | makeParameter => exact (hargument 0).bind fun _ _ _ hv => respects_newProcedure (.parameter hv)
  | syntaxSubforms => exact respects_syntaxSubforms hargs
  | syntaxToDatum =>
      refine (respects_syntaxArgument hargs 0 _).bind fun stx _ _ _ => ?_
      exact respects_stampValue stx.obeys_toDatum
  | datumToSyntax => exact respects_datumToSyntax hargs
  | boundIdentifierEqual | freeIdentifierEqual =>
      refine (respects_identifierArgument hargs 0 _).bind fun _ _ _ _ => ?_
      refine (respects_identifierArgument hargs 1 _).bind fun _ _ _ _ => ?_
      exact .getSpaces_bind fun _ => .pure .atom

/-! ## Frames -/

theorem World.Guarded.setFrames (hw : w.Guarded guard) {frames : Array Frame}
    (h : ∀ (i : Nat) (f : Frame), frames[i]? = some f → f.Obeys guard) :
    ({ w with frames } : World).Guarded guard :=
  ⟨{ hw.consistent with }, { hw.obeys with frames := h }, hw.there⟩

theorem respects_pushFrame {env : Env} {values : Array (Option Value)}
    (hvalues : ∀ (slot : Nat) (v : Value), values[slot]? = some (some v) → v.Obeys guard) :
    Respects guard (fun _ env' => env'.space = env.space) (pushFrame env values) w := by
  intro hw
  exact ⟨hw.setFrames fun _ _ hf _ _ => forall_frames_push hw.obeys.frames hvalues hf,
    .refl _ w.spaces, rfl⟩

theorem respects_frameAt (env : Env) (depth : Nat) :
    Respects guard (fun _ _ => True) (frameAt env depth) w := by
  refine .get_bind fun _ => ?_
  split
  · exact .pure trivial
  · exact .fail _

theorem respects_getLocal (env : Env) (depth slot : Nat) (name : String) :
    Respects guard (fun _ v => v.Obeys guard) (getLocal env depth slot name) w := by
  refine (respects_frameAt env depth).bind fun frame w₁ _ _ => .get_bind fun hw₁ => ?_
  split
  · rename_i v hv
    obtain ⟨f, hf, hv⟩ := Option.bind_eq_some_iff.1 hv
    exact .pure (hw₁.obeys.frames frame f hf slot v hv)
  · exact .fail _
  · exact .fail _

theorem World.Guarded.setSlot (hw : w.Guarded guard) {v : Value} (hv : v.Obeys guard)
    (frame slot : Nat) :
    ({ w with frames := w.frames.modify frame fun f =>
      { f with slots := f.slots.setIfInBounds slot (some v) } } : World).Guarded guard :=
  hw.setFrames fun _ _ hf _ _ => forall_frames_setSlot hw.obeys.frames hv frame slot hf

theorem respects_setSlot {v : Value} (hv : v.Obeys guard) (frame slot : Nat) :
    Respects guard (fun _ _ => True) (setSlot frame slot v) w := by
  refine .get_bind fun _ => ?_
  cases w.frames[frame]? with
  | none =>
      simp only [Bool.false_eq_true, if_false]
      exact .fail _
  | some f =>
      simp only [decide_eq_true_eq]
      split
      · exact .modify fun hw => ⟨hw.setSlot hv frame slot, .refl _ _⟩
      · exact .fail _

/-! ## Look-ups -/

namespace World.Guarded

theorem ifOk_valueAt (hw : w.Guarded guard) (ns : NamespaceId) (address : Nat) (name : String) :
    IfOk (Value.Obeys guard) (w.spaces.valueAt ns address name) := by
  rw [Spaces.valueAt]
  cases hspace : w.spaces[ns]? with
  | none => exact .error _
  | some space =>
      dsimp only
      rw [Namespace.valueAt]
      cases hv : space.value? address with
      | none => exact .error _
      | some v =>
          have hvalue : w.spaces.value? ns address = some v := by
            rw [Spaces.value?, hspace]
            exact hv
          exact .ok (hw.obeys.values hvalue)

theorem ifOk_lookupImport (hw : w.Guarded guard) (ns : NamespaceId) (id address : Nat)
    (name : String) : IfOk (Value.Obeys guard) (w.spaces.lookupImport ns id address name) := by
  rw [Spaces.lookupImport]
  split
  · exact .error _
  · split
    · exact hw.ifOk_valueAt _ address name
    · exact .error _

theorem ifOk_lookupName (hw : w.Guarded guard) (ns : NamespaceId) (name : String) :
    IfOk (Value.Obeys guard) (w.spaces.lookupName ns name) := by
  rw [Spaces.lookupName]
  split
  · exact .error _
  · split
    · exact .error _
    · exact hw.ifOk_valueAt _ _ name

end World.Guarded

/-! ## Application -/

/-- What a step leads to obeys the guard. -/
def Next.Obeys (guard : Guard) : Next → Prop
  | .value v => v.Obeys guard
  | .tail code env => code.Obeys guard env.space

theorem respects_applyStep {procedure : Value} {args : List Value}
    (hprocedure : procedure.Obeys guard) (hargs : ∀ v ∈ args, v.Obeys guard) :
    Respects guard (fun _ next => next.Obeys guard) (applyStep procedure args) w := by
  cases hprocedure with
  | @procedure id p hp =>
      refine .get_bind fun _ => ?_
      refine Respects.bind (P := fun _ _ => True) (.ofExcept fun _ _ => trivial) fun _ w₁ _ _ => ?_
      cases hp with
      | native => exact (Primitive.respects_call _ hargs).bind fun _ _ _ hv => .pure hv
      | parameter hdefault =>
          exact .get_bind fun hw₁ => .pure (forall_parameterValue hw₁.obeys.dynamic hdefault)
      | closure hbody =>
          -- The body is run in the namespace of the closure.
          refine (respects_pushFrame (forall_argumentSlots hargs fun _ => .group)).bind
            fun env w₂ _ henv => .pure ?_
          rw [Next.Obeys, henv]
          exact hbody
  | _ => exact .get_bind fun _ => .fail _

theorem respects_asTransformer {origin : Syntax} {v : Value} (hv : v.Obeys guard) :
    Respects guard (fun _ v => v.Obeys guard) (asTransformer origin v) w := by
  cases hv with
  | procedure hp => exact respects_newTransformer hp
  | transformer hp => exact .pure (.transformer hp)
  | form => exact .pure .form
  | _ => exact .fail _

/-! ## Steps -/

section

variable {eval : Code → Env → RunM Value} {env : Env}

/-- Evaluation of code that obeys the guard respects it. -/
def EvalRespects (guard : Guard) (eval : Code → Env → RunM Value) : Prop :=
  ∀ (code : Code) (env : Env) (w : World), code.Obeys guard env.space →
    Respects guard (fun _ v => v.Obeys guard) (eval code env) w

theorem respects_evalAll (heval : EvalRespects guard eval) {codes : List Code}
    (hcodes : ∀ code ∈ codes, code.Obeys guard env.space) :
    Respects guard (fun _ vs => ∀ v ∈ vs, v.Obeys guard) (evalAll eval env codes) w := by
  induction codes generalizing w with
  | nil => exact .pure (by simp)
  | cons code rest ih =>
      obtain ⟨hcode, hrest⟩ := List.forall_mem_cons.1 hcodes
      refine (heval code env w hcode).bind fun v w₁ _ hv => ?_
      exact (ih hrest).bind fun vs w₂ _ hvs => .pure (List.forall_mem_cons.2 ⟨hv, hvs⟩)

theorem respects_evalFields (heval : EvalRespects guard eval) {codes : List (String × Code)}
    {fields : List (String × Value)} (hcodes : ∀ field ∈ codes, field.2.Obeys guard env.space)
    (hfields : ∀ field ∈ fields, field.2.Obeys guard) :
    Respects guard (fun _ (fields : List (String × Value)) => ∀ field ∈ fields, field.2.Obeys guard)
      (evalFields eval env codes fields) w := by
  induction codes generalizing w fields with
  | nil => exact .pure hfields
  | cons field rest ih =>
      obtain ⟨hcode, hrest⟩ := List.forall_mem_cons.1 hcodes
      refine (heval field.2 env w hcode).bind fun v w₁ _ hv => ?_
      exact ih hrest (Fields.forall_insert hv hfields)

theorem respects_evalInit (heval : EvalRespects guard eval) {codes : List Code}
    (hcodes : ∀ code ∈ codes, code.Obeys guard env.space) :
    Respects guard (fun _ next => next.Obeys guard) (evalInit eval env codes) w := by
  induction codes generalizing w with
  | nil => exact .pure Value.Obeys.void
  | cons code rest ih =>
      obtain ⟨hcode, hrest⟩ := List.forall_mem_cons.1 hcodes
      cases rest with
      | nil => exact .pure hcode
      | cons next rest => exact (heval code env w hcode).bind fun _ _ _ _ => ih hrest

theorem respects_evalSlots (heval : EvalRespects guard eval) {frame slot : Nat} {codes : List Code}
    (hcodes : ∀ code ∈ codes, code.Obeys guard env.space) :
    Respects guard (fun _ _ => True) (evalSlots eval env frame slot codes) w := by
  induction codes generalizing w slot with
  | nil => exact .pure trivial
  | cons code rest ih =>
      obtain ⟨hcode, hrest⟩ := List.forall_mem_cons.1 hcodes
      refine (heval code env w hcode).bind fun v w₁ _ hv => ?_
      exact (respects_setSlot hv frame slot).bind fun _ _ _ _ => ih hrest

theorem respects_evalClauses (heval : EvalRespects guard eval) {bindings : List (Code × Code)}
    (hparameters : ∀ binding ∈ bindings, binding.1.Obeys guard env.space)
    (hvalues : ∀ binding ∈ bindings, binding.2.Obeys guard env.space) :
    Respects guard (fun _ (clauses : List (ObjectId × Value)) =>
      ∀ clause ∈ clauses, clause.2.Obeys guard) (evalClauses eval env bindings) w := by
  induction bindings generalizing w with
  | nil => exact .pure (by simp)
  | cons binding rest ih =>
      obtain ⟨hparameter, hparameters⟩ := List.forall_mem_cons.1 hparameters
      obtain ⟨hvalue, hvalues⟩ := List.forall_mem_cons.1 hvalues
      refine (heval binding.1 env w hparameter).bind fun v w₁ _ _ => ?_
      split
      · refine (heval binding.2 env w₁ hvalue).bind fun v w₂ _ hv => ?_
        refine (ih hparameters hvalues).bind fun clauses w₃ _ hclauses => .pure ?_
        exact List.forall_mem_cons.2 ⟨hv, hclauses⟩
      · exact .fail _

theorem World.Guarded.setDynamic (hw : w.Guarded guard) {dynamic : List (ObjectId × Value)}
    (h : ∀ p ∈ dynamic, p.2.Obeys guard) : ({ w with dynamic } : World).Guarded guard :=
  ⟨{ hw.consistent with }, { hw.obeys with dynamic := h }, hw.there⟩

theorem respects_setDynamic {dynamic : List (ObjectId × Value)}
    (h : ∀ p ∈ dynamic, p.2.Obeys guard) :
    Respects guard (fun _ _ => True) (modify fun w => { w with dynamic }) w :=
  .modify fun hw => ⟨hw.setDynamic h, .refl _ _⟩

/-- Values of parameters are dropped after a computation. -/
theorem Respects.truncateDynamic {α : Type} {P : α → Prop} {x : RunM α} {size : Nat}
    (hx : Respects guard (fun _ a => P a) x w) :
    Respects guard (fun _ a => P a)
      (x.andThen fun w => { w with dynamic := truncate size w.dynamic }) w := by
  refine hx.andThen (fun w' hw' _ => ⟨hw'.setDynamic fun p hp => ?_, rfl⟩) fun _ _ ha => ha
  exact hw'.obeys.dynamic p (mem_of_mem_truncate hp)

/-- One step respects the guard if the evaluation of subforms does. -/
theorem respects_step (heval : EvalRespects guard eval) {code : Code}
    (hcode : code.Obeys guard env.space) :
    Respects guard (fun _ next => next.Obeys guard) (step eval code env) w := by
  cases code with
  | constant v => exact .pure hcode.constant
  | void => exact .pure Value.Obeys.void
  | localRef depth slot name =>
      exact (respects_getLocal env depth slot name).bind fun _ _ _ hv => .pure hv
  | topRef address name =>
      refine .getSpaces_bind fun hw => ?_
      exact (hw.ifOk_valueAt _ _ _).respects.bind fun _ _ _ hv => .pure hv
  | importRef id address name =>
      refine .getSpaces_bind fun hw => ?_
      exact (hw.ifOk_lookupImport _ _ _ _).respects.bind fun _ _ _ hv => .pure hv
  | freeRef name origin =>
      refine .getSpaces_bind fun hw => ?_
      exact (hw.ifOk_lookupName _ _).respects.mapError.bind fun _ _ _ hv => .pure hv
  | localSet depth slot value =>
      refine (heval value env w (hcode.part (List.mem_singleton_self _))).bind fun v _ _ hv => ?_
      refine (respects_frameAt env depth).bind fun frame _ _ _ => ?_
      exact (respects_setSlot hv frame slot).bind fun _ _ _ _ => .pure Value.Obeys.void
  | topSet address value =>
      -- The slot is one of the namespace that the code runs in, which is where it is allowed.
      refine (heval value env w (hcode.part (List.mem_singleton_self _))).bind fun v _ _ hv => ?_
      exact (respects_setValue hv (hcode.write rfl)).bind fun _ _ _ _ => .pure Value.Obeys.void
  | define name address value =>
      refine (heval value env w (hcode.part (List.mem_singleton_self _))).bind fun v _ _ hv => ?_
      refine (respects_inferName v name).bind fun _ _ _ _ => ?_
      exact (respects_setValue hv (hcode.write rfl)).bind fun _ _ _ _ => .pure Value.Obeys.void
  | defineSyntax name address value origin =>
      refine (heval value env w (hcode.part (List.mem_singleton_self _))).bind fun v _ _ hv => ?_
      refine (respects_asTransformer hv).bind fun v _ _ hv => ?_
      refine (respects_inferName v name).bind fun _ _ _ _ => ?_
      exact (respects_setValue hv (hcode.write rfl)).bind fun _ _ _ _ => .pure Value.Obeys.void
  | branch test consequent alternative =>
      refine (heval test env w (hcode.part (by simp [Code.parts]))).bind fun v _ _ _ => .pure ?_
      rw [Next.Obeys]
      split
      · exact hcode.part (by simp [Code.parts])
      · exact hcode.part (by simp [Code.parts])
  | sequence forms => exact respects_evalInit heval fun code h => hcode.part h
  | lambda name required rest body =>
      have hbody : body.Obeys guard env.space := hcode.part (List.mem_singleton_self _)
      exact (respects_newProcedure (.closure hbody)).bind fun _ _ _ hv => .pure hv
  | letIn inits body =>
      have hinits : ∀ code ∈ inits, code.Obeys guard env.space := fun code h =>
        hcode.part (List.mem_cons_of_mem body h)
      refine (respects_evalAll heval hinits).bind fun vs _ _ hvs => ?_
      refine (respects_pushFrame (forall_slots_map hvs)).bind fun inner _ _ hinner => .pure ?_
      rw [Next.Obeys, hinner]
      exact hcode.part List.mem_cons_self
  | letrec inits body =>
      refine (respects_pushFrame (forall_slots_replicate inits.length)).bind fun inner _ _ hinner => ?_
      refine (respects_frameAt inner 0).bind fun frame _ _ _ => ?_
      have hinits : ∀ code ∈ inits, code.Obeys guard inner.space := fun code h =>
        hinner ▸ hcode.part (List.mem_cons_of_mem body h)
      refine (respects_evalSlots heval hinits).bind fun _ _ _ _ => .pure ?_
      rw [Next.Obeys, hinner]
      exact hcode.part List.mem_cons_self
  | apply operator operands call =>
      refine (heval operator env w (hcode.part List.mem_cons_self)).bind
        fun procedure _ _ hprocedure => ?_
      have hoperands : ∀ code ∈ operands, code.Obeys guard env.space := fun code h =>
        hcode.part (List.mem_cons_of_mem operator h)
      exact (respects_evalAll heval hoperands).bind fun args _ _ hargs =>
        .mapError (respects_applyStep hprocedure hargs)
  | parameterize bindings body =>
      have hparameters : ∀ binding ∈ bindings, binding.1.Obeys guard env.space := fun b h =>
        hcode.part (by simp only [Code.parts, List.mem_cons, List.mem_append, List.mem_map]
                       exact .inr (.inl ⟨b, h, rfl⟩))
      have hvalues : ∀ binding ∈ bindings, binding.2.Obeys guard env.space := fun b h =>
        hcode.part (by simp only [Code.parts, List.mem_cons, List.mem_append, List.mem_map]
                       exact .inr (.inr ⟨b, h, rfl⟩))
      refine (respects_evalClauses heval hparameters hvalues).bind fun clauses w₁ _ hclauses => ?_
      refine .get_bind fun _ => ?_
      refine (Respects.modify fun hw₁ => ⟨hw₁.setDynamic fun p hp => ?_, .refl _ _⟩).bind
        fun _ w₂ _ _ => ?_
      · -- A parameter has the value of a clause, or the one that it has outside.
        rcases List.mem_append.1 hp with hp | hp
        · exact hclauses p (List.mem_reverse.1 hp)
        · exact hw₁.obeys.dynamic p hp
      · have hbody := heval body env w₂ (hcode.part List.mem_cons_self)
        exact hbody.truncateDynamic.bind fun _ _ _ hv => .pure hv
  | listLiteral elements =>
      have helements : ∀ code ∈ elements, code.Obeys guard env.space := fun code h => hcode.part h
      exact (respects_evalAll heval helements).bind fun _ _ _ hvs => .pure (.group hvs)
  | recordLiteral fields =>
      have hfields : ∀ field ∈ fields, field.2.Obeys guard env.space := fun field h =>
        hcode.part (List.mem_map_of_mem h)
      refine (respects_evalFields heval hfields (by simp)).bind fun fields _ _ hfields => ?_
      exact (respects_newRecord hfields).bind fun _ _ _ hv => .pure hv

end

/-! ## Evaluation -/

/-- Evaluation respects the guard, however many steps it may make. -/
theorem respects_eval (fuel : Nat) : EvalRespects guard (eval fuel) := by
  induction fuel with
  | zero => exact fun _ _ _ _ => .exhausted
  | succ fuel ih =>
      intro code env w hcode
      refine (respects_step ih hcode).bind fun next w₁ _ hnext => ?_
      cases next with
      | value v => exact .pure hnext
      | tail code env => exact ih code env w₁ hnext

theorem respects_applyProcedure {fuel : Nat} {procedure : Value} {args : List Value}
    (hprocedure : procedure.Obeys guard) (hargs : ∀ v ∈ args, v.Obeys guard) :
    Respects guard (fun _ v => v.Obeys guard) (applyProcedure fuel procedure args) w := by
  refine (respects_applyStep hprocedure hargs).bind fun next w₁ _ hnext => ?_
  cases next with
  | value v => exact .pure hnext
  | tail code env => exact respects_eval fuel code env w₁ hnext

end HygienicLisp

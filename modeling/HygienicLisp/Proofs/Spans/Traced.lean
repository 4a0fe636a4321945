import HygienicLisp.Proofs.Contexts
import HygienicLisp.Proofs.Namespaces.Growth
import HygienicLisp.Session

/-!
# Where ranges come from

A range is recorded when a text is read: on the forms that are read, or for the failure to read them.
Afterwards it is only copied.  `Syntax.Traced given` says that every range on a form or inside it was
recorded when one of the given sources was read, `World.Traced given` says so of everything that a
program holds, and `Error.Traced given` of a failure and its trail, whose source is a given one.

A computation only copies ranges if in such a world it leads to such a world, and to such a failure if
it fails (`Copies`).
-/

namespace HygienicLisp

/-! ## The ranges in a form -/

namespace Syntax

mutual

/-- The ranges of a form and of the forms inside it. -/
def spans : Syntax → List Span
  | atom c _ => c.span.toList
  | group c _ items => c.span.toList ++ spansAll items
  | record c fields => c.span.toList ++ spansFields fields

/-- The ranges in the forms of a sequence. -/
def spansAll : List Syntax → List Span
  | [] => []
  | stx :: rest => stx.spans ++ spansAll rest

/-- The ranges in the fields of a record. -/
def spansFields : List (String × Syntax) → List Span
  | [] => []
  | (_, stx) :: rest => stx.spans ++ spansFields rest

end

theorem spansAll_eq (items : List Syntax) : spansAll items = items.flatMap spans := by
  induction items with
  | nil => rfl
  | cons stx rest ih => rw [spansAll, ih, List.flatMap_cons]

theorem spansFields_eq (fields : List (String × Syntax)) :
    spansFields fields = fields.flatMap fun field => field.2.spans := by
  induction fields with
  | nil => rfl
  | cons field rest ih => rw [spansFields, ih, List.flatMap_cons]

@[simp] theorem spans_atom (c : Context) (a : Atom) : (atom c a).spans = c.span.toList := by
  rw [spans]

@[simp] theorem spans_group (c : Context) (shape : Shape) (items : List Syntax) :
    (group c shape items).spans = c.span.toList ++ items.flatMap spans := by
  rw [spans, spansAll_eq]

@[simp] theorem spans_record (c : Context) (fields : List (String × Syntax)) :
    (record c fields).spans = c.span.toList ++ fields.flatMap fun field => field.2.spans := by
  rw [spans, spansFields_eq]

theorem mem_spans_of_span {stx : Syntax} {span : Span} (h : stx.span = some span) :
    span ∈ stx.spans := by
  cases stx <;> simp_all [Syntax.span, context]

/-- The context of a form does not matter but for its range. -/
theorem spans_setContext {c : Context} {stx : Syntax} (h : c.span = stx.span) :
    (stx.setContext c).spans = stx.spans := by
  cases stx <;> simp_all [setContext, Syntax.span, context]

@[simp] theorem spans_addWrap (wrap : Wrap) (stx : Syntax) : (stx.addWrap wrap).spans = stx.spans :=
  spans_setContext rfl

@[simp] theorem spans_addWraps (newer : List Wrap) (stx : Syntax) :
    (stx.addWraps newer).spans = stx.spans := by
  induction newer with
  | nil => rfl
  | cons wrap newer ih => rw [addWraps_cons, spans_addWrap, ih]

@[simp] theorem spans_introduce (ns : NamespaceId) (stx : Syntax) :
    (stx.introduce ns).spans = stx.spans :=
  spans_addWrap _ stx

@[simp] theorem spans_withBinding (b : Binding) (stx : Syntax) :
    (stx.withBinding b).spans = stx.spans :=
  spans_setContext rfl

theorem spans_unlabelled (stx : Syntax) : stx.unlabelled.spans = stx.spans := by
  induction stx using partsInduction with
  | atom c a => simp
  | group c shape items ih =>
      rw [unlabelled_group, spans_group, spans_group, List.flatMap_map]
      exact congrArg _ (List.flatMap_congr ih)
  | record c fields ih =>
      rw [unlabelled_record, spans_record, spans_record, List.flatMap_map]
      exact congrArg _ (List.flatMap_congr ih)

@[simp] theorem spans_stamp (stx : Syntax) (next : Nat) : (stx.stamp next).1.spans = stx.spans := by
  rw [← spans_unlabelled, unlabelled_stamp, spans_unlabelled]

mutual

theorem spans_strip : ∀ stx : Syntax, stx.strip.spans = stx.spans
  | atom c a => by rw [strip, spans, spans]
  | group c shape items => by rw [strip, spans, spans, spansAll_stripAll items]
  | record c fields => by rw [strip, spans, spans, spansFields_stripFields fields]

theorem spansAll_stripAll : ∀ items : List Syntax, spansAll (stripAll items) = spansAll items
  | [] => rfl
  | stx :: rest => by rw [stripAll, spansAll, spansAll, spans_strip stx, spansAll_stripAll rest]

theorem spansFields_stripFields :
    ∀ fields : List (String × Syntax), spansFields (stripFields fields) = spansFields fields
  | [] => rfl
  | (key, stx) :: rest => by
      rw [stripFields, spansFields, spansFields, spans_strip stx, spansFields_stripFields rest]

end

end Syntax

/-! ## Recorded ranges -/

/-- The range was recorded when the source was read. -/
inductive Source.Records (source : Source) (span : Span) : Prop
  | onForm {forms : List Syntax} {stx : Syntax} (hread : source.read = .ok forms)
      (hstx : stx ∈ forms) (hspan : span ∈ stx.spans)
  | forFailure {e : Error} (hread : source.read = .error e) (hspan : e.place.span = some span)

/-- The range was recorded when one of the given sources was read. -/
def Recorded (given : Source → Prop) (span : Span) : Prop :=
  ∃ source, given source ∧ source.Records span

/-- Every range in the form was recorded when one of the given sources was read. -/
def Syntax.Traced (given : Source → Prop) (stx : Syntax) : Prop :=
  ∀ span ∈ stx.spans, Recorded given span

namespace Syntax.Traced

variable {given : Source → Prop} {stx : Syntax}

theorem span (h : stx.Traced given) : ∀ span ∈ stx.span, Recorded given span :=
  fun span hspan => h span (mem_spans_of_span hspan)

theorem of_spans_eq {other : Syntax} (h : stx.Traced given) (hspans : other.spans = stx.spans) :
    other.Traced given := by
  rw [Traced, hspans]
  exact h

theorem addWrap (h : stx.Traced given) (wrap : Wrap) : (stx.addWrap wrap).Traced given :=
  h.of_spans_eq (spans_addWrap wrap stx)

theorem addWraps (h : stx.Traced given) (newer : List Wrap) : (stx.addWraps newer).Traced given :=
  h.of_spans_eq (spans_addWraps newer stx)

theorem atom {c : Context} (h : ∀ span ∈ c.span, Recorded given span) (a : Atom) :
    (Syntax.atom c a).Traced given := by
  intro span hspan
  rw [spans_atom, Option.mem_toList] at hspan
  exact h span hspan

theorem group {c : Context} (h : ∀ span ∈ c.span, Recorded given span) {shape : Shape}
    {items : List Syntax} (hitems : ∀ item ∈ items, item.Traced given) :
    (Syntax.group c shape items).Traced given := by
  intro span hspan
  rw [spans_group, List.mem_append, Option.mem_toList, List.mem_flatMap] at hspan
  rcases hspan with hspan | ⟨item, hitem, hspan⟩
  · exact h span hspan
  · exact hitems item hitem span hspan

theorem record {c : Context} (h : ∀ span ∈ c.span, Recorded given span)
    {fields : List (String × Syntax)} (hfields : ∀ field ∈ fields, field.2.Traced given) :
    (Syntax.record c fields).Traced given := by
  intro span hspan
  rw [spans_record, List.mem_append, Option.mem_toList, List.mem_flatMap] at hspan
  rcases hspan with hspan | ⟨field, hfield, hspan⟩
  · exact h span hspan
  · exact hfields field hfield span hspan

theorem items {c : Context} {shape : Shape} {items : List Syntax}
    (h : (Syntax.group c shape items).Traced given) : ∀ item ∈ items, item.Traced given := by
  intro item hitem span hspan
  refine h span ?_
  rw [spans_group]
  exact List.mem_append_right _ (List.mem_flatMap.2 ⟨item, hitem, hspan⟩)

theorem fields {c : Context} {fields : List (String × Syntax)}
    (h : (Syntax.record c fields).Traced given) : ∀ field ∈ fields, field.2.Traced given := by
  intro field hfield span hspan
  refine h span ?_
  rw [spans_record]
  exact List.mem_append_right _ (List.mem_flatMap.2 ⟨field, hfield, hspan⟩)

theorem subforms? (h : stx.Traced given) {parts : List Syntax} (hparts : stx.subforms? = some parts) :
    ∀ part ∈ parts, part.Traced given := by
  rcases stx with _ | ⟨c, _ | _, items⟩ | _
  case group.sexp =>
    obtain rfl := Option.some.inj hparts
    exact List.forall_mem_map.2 fun item hitem => (h.items item hitem).addWraps c.wraps
  all_goals cases hparts

theorem elements? (h : stx.Traced given) {parts : List Syntax}
    (hparts : stx.elements? = some parts) : ∀ part ∈ parts, part.Traced given := by
  rcases stx with _ | ⟨c, _ | _, items⟩ | _
  case group.list =>
    obtain rfl := Option.some.inj hparts
    exact List.forall_mem_map.2 fun item hitem => (h.items item hitem).addWraps c.wraps
  all_goals cases hparts

theorem fields? (h : stx.Traced given) {fields : List (String × Syntax)}
    (hfields : stx.fields? = some fields) : ∀ field ∈ fields, field.2.Traced given := by
  rcases stx with _ | _ | ⟨c, items⟩
  case record =>
    obtain rfl := Option.some.inj hfields
    exact List.forall_mem_map.2 fun field hfield => (h.fields field hfield).addWraps c.wraps
  all_goals cases hfields

theorem subforms (h : stx.Traced given) : ∀ part ∈ stx.subforms, part.Traced given := by
  rw [Syntax.subforms]
  cases hparts : stx.subforms? with
  | none => simp
  | some parts => exact h.subforms? hparts

theorem elements (h : stx.Traced given) : ∀ part ∈ stx.elements?.getD [], part.Traced given := by
  cases hparts : stx.elements? with
  | none => simp
  | some parts => exact h.elements? hparts

theorem allFields (h : stx.Traced given) :
    ∀ field ∈ stx.fields?.getD [], field.2.Traced given := by
  cases hfields : stx.fields? with
  | none => simp
  | some fields => exact h.fields? hfields

theorem rebuildSexp (h : stx.Traced given) {items : List Syntax}
    (hitems : ∀ item ∈ items, item.Traced given) : (stx.rebuildSexp items).Traced given :=
  group (c := { span := stx.span }) h.span hitems

theorem stamp (h : stx.Traced given) (next : Nat) : (stx.stamp next).1.Traced given :=
  h.of_spans_eq (spans_stamp stx next)

end Syntax.Traced

/-! ## Values, code and failures -/

mutual

/-- Every range reachable from the value was recorded when one of the given sources was read. -/
inductive Value.Traced (given : Source → Prop) : Value → Prop
  | void : Value.Traced given .void
  | atom {a : Atom} : Value.Traced given (.atom a)
  | group {shape : Shape} {items : List Value} (hitems : ∀ v ∈ items, Value.Traced given v) :
      Value.Traced given (.group shape items)
  | record {label : Nat} {fields : List (String × Value)}
      (hfields : ∀ field ∈ fields, Value.Traced given field.2) :
      Value.Traced given (.record label fields)
  | stx {s : Syntax} (hs : s.Traced given) : Value.Traced given (.stx s)
  | procedure {id : ObjectId} {p : Procedure} (hp : Procedure.Traced given p) :
      Value.Traced given (.procedure id p)
  | transformer {id procedureId : ObjectId} {p : Procedure} (hp : Procedure.Traced given p) :
      Value.Traced given (.transformer id procedureId p)
  | form {f : CoreForm} : Value.Traced given (.form f)

/-- Every range reachable from the procedure was recorded when one of the given sources was read. -/
inductive Procedure.Traced (given : Source → Prop) : Procedure → Prop
  | native {arity : Arity} {p : Primitive} : Procedure.Traced given (.native arity p)
  | closure {required : Nat} {rest : Bool} {body : Code} {env : Env}
      (hbody : Code.Traced given body) : Procedure.Traced given (.closure required rest body env)
  | parameter {default : Value} (hdefault : Value.Traced given default) :
      Procedure.Traced given (.parameter default)

/-- Every range in the code was recorded when one of the given sources was read. -/
inductive Code.Traced (given : Source → Prop) : Code → Prop
  | constant {v : Value} (hv : Value.Traced given v) : Code.Traced given (.constant v)
  | void : Code.Traced given .void
  | localRef {depth slot : Nat} {name : String} : Code.Traced given (.localRef depth slot name)
  | topRef {address : Nat} {name : String} : Code.Traced given (.topRef address name)
  | importRef {id address : Nat} {name : String} : Code.Traced given (.importRef id address name)
  | freeRef {name : String} {origin : Syntax} (horigin : origin.Traced given) :
      Code.Traced given (.freeRef name origin)
  | localSet {depth slot : Nat} {value : Code} (hvalue : Code.Traced given value) :
      Code.Traced given (.localSet depth slot value)
  | topSet {address : Nat} {value : Code} (hvalue : Code.Traced given value) :
      Code.Traced given (.topSet address value)
  | define {name : String} {address : Nat} {value : Code} (hvalue : Code.Traced given value) :
      Code.Traced given (.define name address value)
  | defineSyntax {name : String} {address : Nat} {value : Code} {origin : Syntax}
      (hvalue : Code.Traced given value) (horigin : origin.Traced given) :
      Code.Traced given (.defineSyntax name address value origin)
  | branch {test consequent alternative : Code} (htest : Code.Traced given test)
      (hconsequent : Code.Traced given consequent) (halternative : Code.Traced given alternative) :
      Code.Traced given (.branch test consequent alternative)
  | sequence {forms : List Code} (hforms : ∀ code ∈ forms, Code.Traced given code) :
      Code.Traced given (.sequence forms)
  | lambda {name : Option String} {required : Nat} {rest : Bool} {body : Code}
      (hbody : Code.Traced given body) : Code.Traced given (.lambda name required rest body)
  | letIn {inits : List Code} {body : Code} (hinits : ∀ code ∈ inits, Code.Traced given code)
      (hbody : Code.Traced given body) : Code.Traced given (.letIn inits body)
  | letrec {inits : List Code} {body : Code} (hinits : ∀ code ∈ inits, Code.Traced given code)
      (hbody : Code.Traced given body) : Code.Traced given (.letrec inits body)
  | apply {operator : Code} {operands : List Code} {call : Syntax}
      (hoperator : Code.Traced given operator)
      (hoperands : ∀ code ∈ operands, Code.Traced given code) (hcall : call.Traced given) :
      Code.Traced given (.apply operator operands call)
  | parameterize {bindings : List (Code × Code)} {body : Code}
      (hparameters : ∀ binding ∈ bindings, Code.Traced given binding.1)
      (hvalues : ∀ binding ∈ bindings, Code.Traced given binding.2)
      (hbody : Code.Traced given body) : Code.Traced given (.parameterize bindings body)
  | listLiteral {elements : List Code} (helements : ∀ code ∈ elements, Code.Traced given code) :
      Code.Traced given (.listLiteral elements)
  | recordLiteral {fields : List (String × Code)}
      (hfields : ∀ field ∈ fields, Code.Traced given field.2) :
      Code.Traced given (.recordLiteral fields)

end

variable {given : Source → Prop}

/-- The ranges of a failure and of its trail. -/
def Error.spans (e : Error) : List Span :=
  e.place.span.toList ++ e.place.trail.flatMap fun entry => entry.span.toList

/-- The ranges of the failure and of its trail were recorded when one of the given sources was read,
and its source is a given one. -/
structure Error.Traced (given : Source → Prop) (e : Error) : Prop where
  spans : ∀ span ∈ e.spans, Recorded given span
  source : ∀ source ∈ e.place.source, given source

namespace Error.Traced

variable {e : Error} {stx : Syntax}

theorem of (fault : Fault) : (Error.of fault).Traced given :=
  ⟨by simp [Error.of, Error.spans], by simp [Error.of]⟩

theorem atForm (h : stx.Traced given) (fault : Fault) : (Error.atForm fault stx).Traced given :=
  ⟨fun span hspan => h.span span (by simpa [Error.atForm, Error.spans] using hspan), by
    simp [Error.atForm]⟩

theorem withContext (h : e.Traced given) (hstx : stx.Traced given) :
    (e.withContext stx).Traced given := by
  refine ⟨fun span hspan => ?_, h.source⟩
  have hown : ∀ span ∈ e.place.span, Recorded given span := fun span hspan =>
    h.spans span (List.mem_append_left _ (Option.mem_toList.2 hspan))
  simp only [Error.spans, Error.withContext, List.flatMap_append, List.mem_append,
    List.flatMap_cons, List.flatMap_nil, List.append_nil, Option.mem_toList] at hspan
  rcases hspan with hspan | hspan | hspan
  · cases hplace : e.place.span with
    | none =>
        rw [hplace] at hspan
        exact hstx.span span hspan
    | some own =>
        rw [hplace] at hspan
        cases hspan
        exact hown _ hplace
  · exact h.spans span (List.mem_append_right _ hspan)
  · exact hstx.span span hspan

theorem withSource (h : e.Traced given) {source : Source} (hsource : given source) :
    (e.withSource source).Traced given := by
  refine ⟨h.spans, fun found hfound => ?_⟩
  simp only [Error.withSource] at hfound
  cases hplace : e.place.source with
  | none =>
      rw [hplace] at hfound
      cases hfound
      exact hsource
  | some own =>
      rw [hplace] at hfound
      cases hfound
      exact h.source _ hplace

end Error.Traced

/-- Every range that the program holds was recorded when one of the given sources was read; the
sources of modules are given. -/
structure World.Traced (given : Source → Prop) (w : World) : Prop where
  values : ∀ (ns : NamespaceId) (address : Nat) (v : Value), w.spaces.value? ns address = some v →
    v.Traced given
  frames : ∀ (i : Nat) (f : Frame), w.frames[i]? = some f →
    ∀ (slot : Nat) (v : Value), f.slots[slot]? = some (some v) → v.Traced given
  dynamic : ∀ p ∈ w.dynamic, p.2.Traced given
  bodies : ∀ d ∈ w.registry.declarations, ∀ code ∈ d.body, code.Traced given
  sources : ∀ entry ∈ w.runtime.sources, given ⟨entry.1.path, entry.2⟩

/-! ## Computations that copy ranges -/

/-- A result with the property, or a failure whose ranges come from the given sources. -/
def Reports (given : Source → Prop) {α : Type} (Q : α → Prop) : Except Error α → Prop
  | .ok a => Q a
  | .error e => e.Traced given

namespace Reports

variable {α β : Type} {Q : α → Prop} {R : β → Prop}

theorem ok {a : α} (h : Q a) : Reports given Q (.ok a) := h

theorem of (fault : Fault) : Reports given Q (.error (.of fault)) := Error.Traced.of fault

theorem map {r : Except Error α} {f : α → β} (hr : Reports given Q r) (hf : ∀ a, Q a → R (f a)) :
    Reports given R (r.map f) := by
  cases r with
  | ok a => exact hf a hr
  | error e => exact hr

end Reports

/-- The computation only copies ranges: in a world whose ranges come from the given sources it leads
to such a world, to a result with the property, and if it fails to such a failure. -/
def Copies (given : Source → Prop) {α : Type} (Q : α → Prop) (x : RunM α) : Prop :=
  ∀ w, w.Traced given →
    match x w with
    | .ok a w' => w'.Traced given ∧ Q a
    | .error halt w' => w'.Traced given ∧ ∀ e, halt = .error e → e.Traced given

namespace Copies

variable {α β : Type} {Q : α → Prop} {R : β → Prop} {x : RunM α}

theorem pure {a : α} (h : Q a) : Copies given Q (pure a : RunM α) := fun _ hw => ⟨hw, h⟩

theorem fail {e : Error} (h : e.Traced given) : Copies given Q (RunM.fail e : RunM α) :=
  fun _ hw => ⟨hw, fun e' he => by
    cases he
    exact h⟩

theorem failOf (fault : Fault) : Copies given Q (RunM.fail (.of fault) : RunM α) := fail (.of fault)

theorem failAt {stx : Syntax} (h : stx.Traced given) (fault : SyntaxFault) :
    Copies given Q (RunM.failAt stx fault : RunM α) :=
  fail (.atForm h _)

theorem check {c : Prop} {_ : Decidable c} {stx : Syntax} (hstx : stx.Traced given)
    {fault : SyntaxFault} (hx : Copies given Q x) :
    Copies given Q (if c then (RunM.failAt stx fault : RunM PUnit) >>= fun _ => x else x) := by
  split
  · exact fail (.atForm hstx _)
  · exact hx

theorem exhausted : Copies given Q (RunM.exhausted : RunM α) :=
  fun _ hw => ⟨hw, fun e he => by cases he⟩

theorem bind {f : α → RunM β} (hx : Copies given Q x) (hf : ∀ a, Q a → Copies given R (f a)) :
    Copies given R (x >>= f) := by
  intro w hw
  have hx := hx w hw
  rw [RunM.bind_apply]
  cases hrun : x w with
  | ok a w' =>
      rw [hrun] at hx
      exact hf a hx.2 w' hx.1
  | error halt w' =>
      rw [hrun] at hx
      exact hx

theorem get_bind {f : World → RunM β} (h : ∀ w, w.Traced given → Copies given R (f w)) :
    Copies given R (get >>= f) :=
  fun w hw => h w hw w hw

theorem getSpaces_bind {f : Spaces → RunM β}
    (h : ∀ w : World, w.Traced given → Copies given R (f w.spaces)) :
    Copies given R (getSpaces >>= f) :=
  fun w hw => h w hw w hw

theorem modifyGet {f : World → α × World}
    (h : ∀ w, w.Traced given → (f w).2.Traced given ∧ Q (f w).1) :
    Copies given Q (modifyGet f : RunM α) :=
  h

theorem modify {f : World → World} (h : ∀ w, w.Traced given → (f w).Traced given) :
    Copies given (fun _ => True) (modify f : RunM PUnit) :=
  fun w hw => ⟨h w hw, trivial⟩

theorem mapError {f : Error → Error} (hf : ∀ e, e.Traced given → (f e).Traced given)
    (hx : Copies given Q x) : Copies given Q (RunM.mapError f x) := by
  intro w hw
  have hx := hx w hw
  rw [RunM.mapError]
  cases hrun : x w with
  | ok a w' =>
      rw [hrun] at hx
      exact hx
  | error halt w' =>
      rw [hrun] at hx
      cases halt with
      | outOfFuel => exact hx
      | error e =>
          refine ⟨hx.1, fun e' he => ?_⟩
          cases he
          exact hf e (hx.2 e rfl)

theorem inContext {stx : Syntax} (hstx : stx.Traced given) (hx : Copies given Q x) :
    Copies given Q (RunM.inContext stx x) :=
  mapError (fun _ he => he.withContext hstx) hx

theorem andThen {leave : World → World} (hx : Copies given Q x)
    (hleave : ∀ w, w.Traced given → (leave w).Traced given) :
    Copies given Q (x.andThen leave) := by
  intro w hw
  have hx := hx w hw
  rw [RunM.andThen]
  cases hrun : x w with
  | ok a w' =>
      rw [hrun] at hx
      exact ⟨hleave w' hx.1, hx.2⟩
  | error halt w' =>
      rw [hrun] at hx
      exact ⟨hleave w' hx.1, hx.2⟩

theorem ofExcept {r : Except Error α} (h : Reports given Q r) :
    Copies given Q (RunM.ofExcept r) := by
  cases r with
  | ok a => exact pure h
  | error e => exact fail h

/-- However a computation ends, it leaves a world whose ranges come from the given sources. -/
theorem leaves (hx : Copies given Q x) {w : World} (hw : w.Traced given) :
    (x.leaves w).Traced given := by
  have hx := hx w hw
  rw [RunM.leaves]
  cases hrun : x w with
  | ok a w' =>
      rw [hrun] at hx
      exact hx.1
  | error halt w' =>
      rw [hrun] at hx
      exact hx.1

end Copies

end HygienicLisp

import HygienicLisp.Proofs.Isolation.Sessions
import HygienicLisp.Proofs.Spans.Expansion
import HygienicLisp.Proofs.Spans.Reading

/-!
# Labels and the texts they come from

Closures, templates of transformers and the code of modules outlive the text they were read from, and a
failure gets the source of whoever runs them.  So a label need not point into the source it is shown
on: in `boxedProcedure_label_beyond_end` it begins beyond the end of that text.

What is true of every run is that the ranges of a failure were recorded when texts were read that the
host has handed in, and that each lies in the text it comes from (`labels_recorded`).  With one such
text the labels point into the source they are shown on.
-/

namespace HygienicLisp

variable {given : Source → Prop}

/-! ## Modules -/

theorem copies_newNamespace (home : ModuleId) (kind : NamespaceKind) :
    Copies given (fun _ => True) (newNamespace home kind) := by
  refine .modifyGet fun w hw => ⟨?_, trivial⟩
  have hcreate : w.spaces.Change (fun _ => True) (fun _ v => v.Traced given)
      (w.spaces.push { home, kind }) := .create home kind
  exact hw.change hcreate

theorem traced_identifier (name : String) (ns : NamespaceId) :
    ((Syntax.ident name).introduce ns).Traced given :=
  (Syntax.Traced.atom (c := {}) (by simp) _).of_spans_eq (Syntax.spans_introduce ns _)

theorem copies_requireNames (ns : NamespaceId) (shadowable : Bool) (provided : List Provided) :
    Copies given (fun _ => True)
      (requireAll ns (fun p => .ok ((Syntax.ident p.name).introduce ns)) shadowable provided) :=
  copies_requireAll (fun p => Reports.ok (traced_identifier p.name ns)) ns shadowable provided

theorem copies_requireKernel (ns : NamespaceId) :
    Copies given (fun _ => True) (requireKernel ns) :=
  .get_bind fun w _ => copies_requireNames ns true w.runtime.kernel.provided

theorem copies_withOwnParameters {α : Type} {Q : α → Prop} {x : RunM α} (hx : Copies given Q x) :
    Copies given Q (withOwnParameters x) := by
  refine .get_bind fun w₀ hw₀ => ?_
  refine Copies.bind (.modify fun w hw => { hw with dynamic := by simp }) fun _ _ => ?_
  exact hx.andThen fun w hw => { hw with dynamic := hw₀.dynamic }

theorem copies_withOwnProvides {α : Type} {Q : α → Prop} {x : RunM α} (hx : Copies given Q x) :
    Copies given Q (withOwnProvides x) := by
  refine .get_bind fun w₀ _ => ?_
  refine Copies.bind (.modify fun w hw => hw.congr rfl rfl rfl rfl rfl) fun _ _ => ?_
  exact hx.andThen fun w hw => hw.congr rfl rfl rfl rfl rfl

section

variable {loader : Loader} (hloader : loader.Copies given)
include hloader

theorem copies_runForm (fuel : Nat) (ns : NamespaceId) (context : ExpandContext) {form : Syntax}
    (hform : form.Traced given) :
    Copies given (Value.Traced given) (runForm loader fuel ns context form) := by
  refine (Expansion.copies_expand hloader ns fuel 0 context hform).bind fun expanded hexpanded => ?_
  exact (copies_compile ns hexpanded).bind fun code hcode => copies_eval fuel hcode _

theorem copies_firstPass (ns : NamespaceId) (fuel : Nat) {forms : List Syntax}
    (hforms : ∀ stx ∈ forms, stx.Traced given) :
    Copies given (fun pending => ∀ stx ∈ pending, stx.Traced given)
      (firstPass loader ns fuel forms) := by
  induction fuel generalizing forms with
  | zero => exact .exhausted
  | succ fuel ih =>
      cases forms with
      | nil => exact .pure (by simp)
      | cons form queue =>
          obtain ⟨hform, hqueue⟩ := List.forall_mem_cons.1 hforms
          have hkeep {form : Syntax} (hform : form.Traced given) :
              Copies given (fun pending => ∀ stx ∈ pending, stx.Traced given)
                (do let rest ← firstPass loader ns fuel queue
                    return form :: rest) :=
            (ih hqueue).bind fun rest hrest => .pure (List.forall_mem_cons.2 ⟨hform, hrest⟩)
          rw [firstPass]
          refine (copies_partialExpand fuel 0 hform).bind fun result hresult => ?_
          split
          · exact ih (List.forall_mem_append.2 ⟨hresult, hqueue⟩)
          · exact (Expansion.copies_predefineForm ns hresult).bind fun form hform => hkeep hform
          · exact (copies_runForm hloader fuel ns _ hresult).bind fun _ _ => ih hqueue
          · exact (Expansion.copies_expand hloader ns fuel 0 _ hresult).bind fun _ _ => ih hqueue
          · exact hkeep hresult

theorem copies_secondPass (ns : NamespaceId) (fuel : Nat) {forms : List Syntax}
    (hforms : ∀ stx ∈ forms, stx.Traced given) :
    Copies given (fun codes => ∀ code ∈ codes, code.Traced given)
      (secondPass loader ns fuel forms) := by
  induction forms with
  | nil => exact .pure (by simp)
  | cons form rest ih =>
      obtain ⟨hform, hrest⟩ := List.forall_mem_cons.1 hforms
      refine (Expansion.copies_expand hloader ns fuel 0 _ hform).bind fun expanded hexpanded => ?_
      refine (copies_compile ns hexpanded).bind fun code hcode => (ih hrest).bind fun codes hcodes => ?_
      exact .pure (List.forall_mem_cons.2 ⟨hcode, hcodes⟩)

theorem copies_declareModule (fuel : Nat) (id : ModuleId) {body : List Syntax}
    (hbody : ∀ stx ∈ body, stx.Traced given) :
    Copies given (Declaration.Traced given) (declareModule loader fuel id body) := by
  refine (copies_newNamespace id .module).bind fun ns _ => ?_
  refine (copies_requireKernel ns).bind fun _ _ => ?_
  refine copies_withOwnParameters (copies_withOwnProvides ?_)
  have hforms : ∀ stx ∈ body.map (Syntax.introduce ns), stx.Traced given :=
    List.forall_mem_map.2 fun stx hstx => (hbody stx hstx).of_spans_eq (Syntax.spans_introduce ns stx)
  refine (copies_firstPass hloader ns fuel hforms).bind fun pending hpending => ?_
  refine (copies_secondPass hloader ns fuel hpending).bind fun codes hcodes => ?_
  exact .get_bind fun w _ => .pure hcodes

theorem copies_loadDeclaration (fuel : Nat) (id : ModuleId) :
    Copies given (Declaration.Traced given) (loadDeclaration loader fuel id) := by
  refine .get_bind fun w hw => ?_
  split
  · exact .failOf _
  · rename_i id' text hsource
    have hid : id' = id := by simpa using List.find?_some hsource
    have hgiven : given ⟨id.path, text⟩ := hid ▸ hw.sources _ (List.mem_of_find?_eq_some hsource)
    refine Copies.mapError (fun e he => he.withSource hgiven) ?_
    refine (Copies.ofExcept (Source.reports_read hgiven)).bind fun body hbody => ?_
    exact copies_declareModule hloader fuel id hbody

end

theorem copies_runBody (fuel : Nat) {d : Declaration} (hd : d.Traced given) :
    Copies given (fun _ => True) (runBody fuel d) := by
  refine copies_withOwnParameters (Expansion.copies_runEach fun code hcode => ?_)
  exact (copies_eval fuel (hd code hcode) _).bind fun _ _ => .pure trivial

theorem copies_declarationOf (id : ModuleId) {load : RunM Declaration}
    (hload : Copies given (Declaration.Traced given) load) :
    Copies given (Declaration.Traced given) (declarationOf id load) := by
  refine .get_bind fun w hw => ?_
  split
  · rename_i hfound
    exact .pure (hw.bodies _ (List.mem_of_find?_eq_some hfound))
  · refine Copies.bind (.modify fun w hw => hw.congr rfl rfl rfl rfl rfl) fun _ _ => ?_
    exact hload.bind fun d hd => (copies_declare hd).bind fun _ _ => .pure hd

theorem copies_instantiateWith (id : ModuleId) {load : RunM Declaration}
    {run : Declaration → RunM Unit} (hload : Copies given (Declaration.Traced given) load)
    (hrun : ∀ d : Declaration, d.Traced given → Copies given (fun _ => True) (run d)) :
    Copies given (fun _ => True) (instantiateWith id load run) := by
  refine .get_bind fun w _ => ?_
  split
  · exact .pure trivial
  · refine copies_whileLoading ((copies_declarationOf id hload).bind fun d hd => ?_) id
    refine Copies.bind (.modify fun w hw => hw.congr rfl rfl rfl rfl rfl) fun _ _ => ?_
    refine (hrun d hd).bind fun _ _ => ?_
    refine Copies.bind (.modify fun w hw => { hw with bodies := hw.bodies }) fun _ _ => ?_
    exact .pure trivial

/-- The loader copies ranges, however deep modules are nested. -/
theorem copies_loaderAt (fuel : Nat) : (loaderAt fuel).Copies given := by
  induction fuel with
  | zero => exact ⟨fun _ => .exhausted, fun _ _ _ => .exhausted⟩
  | succ fuel ih =>
      refine ⟨fun id => ?_, fun id _ hbody => copies_declareModule ih fuel id hbody⟩
      exact copies_instantiateWith id (copies_loadDeclaration ih fuel id) fun d hd =>
        copies_runBody fuel hd

/-! ## Sessions -/

theorem copies_bindDefinition (ns : NamespaceId) (d : Definition) {v : Value}
    (hv : v.Traced given) : Copies given (fun _ => True) (bindDefinition ns d v) := by
  have hstore : Copies given (fun _ => True) (do
      inferName v d.name
      setValue ns d.address v) :=
    (copies_inferName v d.name).bind fun _ _ => copies_setValue hv ns d.address
  unfold bindDefinition
  split
  · exact Copies.bind (Q := fun _ => True) (.failOf _) fun _ _ => hstore
  · exact hstore

theorem copies_defineAll (ns : NamespaceId) {definitions : List (String × RunM Value)}
    (h : ∀ definition ∈ definitions, Copies given (Value.Traced given) definition.2) :
    Copies given (fun _ => True) (defineAll ns definitions) := by
  induction definitions with
  | nil => exact .pure trivial
  | cons definition rest ih =>
      obtain ⟨hvalue, hrest⟩ := List.forall_mem_cons.1 h
      refine hvalue.bind fun v hv => Copies.bind (Q := fun _ => True) ?_ fun _ _ => ih hrest
      refine (copies_predefine (traced_identifier definition.1 ns) ns).bind fun stx _ => ?_
      refine .getSpaces_bind fun w _ => ?_
      split
      · exact copies_bindDefinition ns _ hv
      · exact .failOf _

theorem copies_buildKernel (id : ModuleId) :
    Copies given (Declaration.Traced given) (buildKernel id) := by
  refine (copies_newNamespace id .module).bind fun ns _ => ?_
  refine (copies_defineAll ns fun definition hdefinition => ?_).bind fun _ _ =>
    .getSpaces_bind fun w _ => .pure (by simp [Declaration.Traced])
  rcases List.mem_append.1 hdefinition with h | h
  · obtain ⟨f, -, rfl⟩ := List.mem_map.1 h
    exact .pure .form
  · obtain ⟨p, -, rfl⟩ := List.mem_map.1 h
    exact copies_newProcedure .native _

theorem copies_installModule {d : Declaration} (hd : d.Traced given) :
    Copies given (fun _ => True) (installModule d) := by
  refine .get_bind fun w₀ hw₀ => ?_
  have hreports : Reports given (fun found => ∀ d ∈ found.2.declarations, d.Traced given)
      (w₀.registry.install d) := by
    rw [Registry.install, Registry.declare]
    split
    · exact .of _
    · exact Reports.ok (List.forall_mem_cons.2 ⟨hd, hw₀.bodies⟩)
  refine (Copies.ofExcept hreports).bind fun found hfound => ?_
  refine Copies.bind (.modify fun w hw => { hw with bodies := hfound }) fun _ _ => ?_
  exact .pure trivial

theorem copies_startRuntime (config : Config) :
    Copies given (fun _ => True) (startRuntime config) := by
  refine Copies.bind (.modify fun w hw => { hw with bodies := by simp, sources := by simp })
    fun _ _ => ?_
  refine (copies_buildKernel _).bind fun d hd => (copies_installModule hd).bind fun kernel _ => ?_
  exact .modify fun w hw => { hw with sources := hw.sources }

theorem copies_openSession : Copies given (fun _ => True) openSession := by
  refine .get_bind fun w _ => ?_
  refine Copies.bind (.modify fun w hw => { hw with sources := hw.sources }) fun _ _ => ?_
  refine (copies_newNamespace _ .topLevel).bind fun ns _ => ?_
  exact (copies_requireKernel ns).bind fun _ _ => .pure trivial

theorem copies_evalQueue {loader : Loader} (hloader : loader.Copies given) (ns : NamespaceId)
    (fuel : Nat) {result : Value} (hresult : result.Traced given) {queue : List Syntax}
    (hqueue : ∀ stx ∈ queue, stx.Traced given) :
    Copies given (Value.Traced given) (evalQueue loader ns fuel result queue) := by
  induction fuel generalizing result queue with
  | zero => exact .exhausted
  | succ fuel ih =>
      cases queue with
      | nil => exact .pure hresult
      | cons form queue =>
          obtain ⟨hform, hqueue⟩ := List.forall_mem_cons.1 hqueue
          refine (copies_partialExpand fuel 0 hform).bind fun expanded hexpanded => ?_
          cases expanded with
          | splice forms => exact ih hresult (List.forall_mem_append.2 ⟨hexpanded, hqueue⟩)
          | form form kind =>
              exact (copies_runForm hloader fuel ns .topLevel hexpanded).bind fun v hv =>
                ih hv hqueue

theorem copies_evalForms (fuel : Nat) (ns : NamespaceId) {result : Value}
    (hresult : result.Traced given) {forms : List Syntax}
    (hforms : ∀ stx ∈ forms, stx.Traced given) :
    Copies given (Value.Traced given) (evalForms fuel ns result forms) := by
  induction forms generalizing result with
  | nil => exact .pure hresult
  | cons form rest ih =>
      obtain ⟨hform, hrest⟩ := List.forall_mem_cons.1 hforms
      have hqueue : ∀ stx ∈ [form.introduce ns], stx.Traced given :=
        List.forall_mem_singleton.2 (hform.of_spans_eq (Syntax.spans_introduce ns form))
      exact (copies_evalQueue (copies_loaderAt fuel) ns fuel .void hqueue).bind fun v hv =>
        ih hv hrest

theorem copies_evalText (fuel : Nat) (ns : NamespaceId) {text : String}
    (hgiven : given ⟨"<top-level>", text⟩) :
    Copies given (Value.Traced given) (evalText fuel ns text) := by
  refine Copies.mapError (fun e he => he.withSource hgiven) ?_
  refine (Copies.ofExcept (Source.reports_read hgiven)).bind fun forms hforms => ?_
  exact copies_evalForms fuel ns .void hforms

theorem copies_addSource {path text : String}
    (hgiven : ∀ id, ModulePath.normalize path none = .ok id → given ⟨id.path, text⟩) :
    Copies given (fun _ => True) (addSource path text) := by
  have hreports : Reports given (fun id : ModuleId => given ⟨id.path, text⟩)
      (ModulePath.normalize path none) := by
    have hnormalize : Reports given (fun _ => True) (ModulePath.normalize path none) :=
      reports_normalize path none
    cases hid : ModulePath.normalize path none with
    | ok id => exact hgiven id hid
    | error e => rwa [hid] at hnormalize
  refine (Copies.ofExcept hreports).bind fun id hid => ?_
  refine Copies.bind (.modify fun w hw => ?_) fun _ _ => .pure trivial
  exact { hw with sources := List.forall_mem_cons.2 ⟨hid, hw.sources⟩ }

theorem copies_requireModule (fuel : Nat) (ns : NamespaceId) (path : String) :
    Copies given (fun _ => True) (requireModule fuel ns path) := by
  refine .getSpaces_bind fun w _ => (copies_resolveModule path _).bind fun id _ => ?_
  exact ((copies_loaderAt fuel).instantiate id).bind fun i _ =>
    copies_requireNames ns false i.provided

/-! ## Runs -/

namespace Action

/-- The texts that the action brings with it, under the names that failures show. -/
def sources : Action → List Source
  | .addSource path text =>
    ((ModulePath.normalize path none).toOption.map fun id => ⟨id.path, text⟩).toList
  | .evalText _ _ text => [⟨"<top-level>", text⟩]
  | _ => []

/-- With the action the host hands in texts and nothing else that has ranges. -/
def HandsInText : Action → Prop
  | .start _ | .addSource _ _ | .openSession | .evalText _ _ _ | .require _ _ _
  | .instantiate _ _ => True
  | _ => False

theorem HandsInText.copies {action : Action} (h : action.HandsInText)
    (hsources : ∀ source ∈ action.sources, given source) :
    Copies given (fun _ => True) action.perform := by
  cases action with
  | start config => exact copies_startRuntime config
  | addSource path text =>
      refine (copies_addSource fun id hid => hsources _ ?_).bind fun _ _ => .pure trivial
      simp [sources, hid, Except.toOption]
  | openSession => exact copies_openSession.bind fun _ _ => .pure trivial
  | evalText fuel ns text =>
      have hgiven := hsources ⟨"<top-level>", text⟩ (by simp [sources])
      exact (copies_evalText fuel ns hgiven).bind fun _ _ => .pure trivial
  | require fuel ns path => exact copies_requireModule fuel ns path
  | instantiate fuel id =>
      exact ((copies_loaderAt fuel).instantiate id).bind fun _ _ => .pure trivial
  | _ => exact h.elim

end Action

/-- Every range that a program holds was recorded when a text was read that the host has handed in. -/
theorem World.Traced.after {w : World} (hw : w.Traced given) {actions : List Action}
    (htexts : ∀ action ∈ actions, action.HandsInText)
    (hsources : ∀ action ∈ actions, ∀ source ∈ action.sources, given source) :
    (w.after actions).Traced given := by
  induction actions generalizing w with
  | nil => exact hw
  | cons action rest ih =>
      obtain ⟨htext, htexts⟩ := List.forall_mem_cons.1 htexts
      obtain ⟨hsource, hsources⟩ := List.forall_mem_cons.1 hsources
      exact ih ((htext.copies hsource).leaves hw) htexts hsources

theorem World.traced_empty : ({} : World).Traced given where
  values ns address v h := by simp [Spaces.value?] at h
  frames i f h := by simp at h
  dynamic := by simp
  bodies := by simp
  sources := by simp

/-! ## Labels -/

/-- A label marks a range of the failure or of its trail. -/
theorem Error.exists_span_of_mem_labels {e : Error} {labels : List Error.Label}
    (hlabels : e.labels? = some labels) :
    ∀ label ∈ labels, ∃ span ∈ e.spans, ∃ message, label = Error.Label.over message span := by
  intro label hlabel
  rw [labels?] at hlabels
  split at hlabels
  · cases hlabels
  · dsimp only at hlabels
    split at hlabels
    · cases hlabels
    · cases hlabels
      rcases List.mem_append.1 hlabel with hown | henclosing
      · obtain ⟨span, hspan, rfl⟩ := List.mem_map.1 hown
        exact ⟨span, List.mem_append_left _ hspan, _, rfl⟩
      · obtain ⟨entry, hentry, hmarked⟩ := List.mem_filterMap.1 henclosing
        cases hspan : entry.span with
        | none =>
            rw [hspan] at hmarked
            cases hmarked
        | some span =>
            rw [hspan] at hmarked
            simp only [Option.ite_none_left_eq_some, Option.some.injEq] at hmarked
            refine ⟨span, List.mem_append_right _ (List.mem_flatMap.2 ⟨entry, ?_, ?_⟩), _,
              hmarked.2.symm⟩
            · exact List.mem_reverse.1 hentry
            · simp [hspan]

theorem Error.exists_source_of_labels {e : Error} {labels : List Error.Label}
    (hlabels : e.labels? = some labels) : ∃ shown, e.place.source = some shown := by
  rw [labels?] at hlabels
  split at hlabels
  · cases hlabels
  · rename_i shown hshown
    exact ⟨shown, hshown⟩

/-- The sources of the texts that are handed in by actions and by an evaluation after them. -/
def handedIn (actions : List Action) (text : String) : List Source :=
  actions.flatMap Action.sources ++ [⟨"<top-level>", text⟩]

/-- If the text cannot be read, the failure is about the text. -/
theorem traced_of_unread {fuel : Nat} {ns : NamespaceId} {text : String} {e e₀ : Error}
    {w w' : World} (hread : (⟨"<top-level>", text⟩ : Source).read = .error e₀)
    (hfails : evalText fuel ns text w = .error (.error e) w') :
    e.Traced (· = ⟨"<top-level>", text⟩) := by
  have hreports : Reports (· = ⟨"<top-level>", text⟩) _ (⟨"<top-level>", text⟩ : Source).read :=
    Source.reports_read rfl
  rw [hread] at hreports
  rw [evalText, hread] at hfails
  cases hfails
  exact Error.Traced.withSource hreports rfl

/-- The ranges of a failure were recorded when texts were read that the host has handed in, and each
lies in the text it comes from; the labels mark such ranges.  A range that was recorded in no other
source than the one the labels are shown on lies in that source, and so do all of them if the text
that is evaluated cannot be read. -/
theorem labels_recorded {actions : List Action}
    (htexts : ∀ action ∈ actions, action.HandsInText) {fuel : Nat} {ns : NamespaceId} {text : String}
    {e : Error} {w : World} {labels : List Error.Label}
    (hfails : evalText fuel ns text (({} : World).after actions) = .error (.error e) w)
    (hlabels : e.labels? = some labels) :
    ∃ shown ∈ handedIn actions text, e.place.source = some shown ∧
      (∀ span ∈ e.spans, ∃ source ∈ handedIn actions text, source.Records span ∧
        span.start ≤ span.stop ∧ span.stop ≤ source.text.utf8ByteSize) ∧
      (∀ label ∈ labels, ∃ span ∈ e.spans, ∃ message, label = Error.Label.over message span) ∧
      ∀ span ∈ e.spans,
        (∀ source ∈ handedIn actions text, source.Records span → source = shown) ∨
            (∃ e₀, (⟨"<top-level>", text⟩ : Source).read = .error e₀) →
          shown.Records span ∧ span.stop ≤ shown.text.utf8ByteSize := by
  have hworld : (({} : World).after actions).Traced (· ∈ handedIn actions text) := by
    refine World.traced_empty.after htexts fun action haction source hsource => ?_
    exact List.mem_append_left _ (List.mem_flatMap.2 ⟨action, haction, hsource⟩)
  have hgiven : (⟨"<top-level>", text⟩ : Source) ∈ handedIn actions text :=
    List.mem_append_right _ (List.mem_singleton_self _)
  have hcopies := copies_evalText fuel ns hgiven _ hworld
  rw [hfails] at hcopies
  have htraced : e.Traced (· ∈ handedIn actions text) := hcopies.2 e rfl
  obtain ⟨shown, hshown⟩ := Error.exists_source_of_labels hlabels
  refine ⟨shown, htraced.source shown hshown, hshown, fun span hspan => ?_,
    Error.exists_span_of_mem_labels hlabels, fun span hspan hown => ?_⟩
  · obtain ⟨source, hsource, hrecords⟩ := htraced.spans span hspan
    exact ⟨source, hsource, hrecords, hrecords.within.start_le, hrecords.within.stop_le⟩
  · have hrecords : shown.Records span := by
      rcases hown with honly | ⟨e₀, hread⟩
      · obtain ⟨source, hsource, hrecords⟩ := htraced.spans span hspan
        exact honly source hsource hrecords ▸ hrecords
      · have hunread := traced_of_unread hread hfails
        obtain ⟨source, rfl, hrecords⟩ := hunread.spans span hspan
        exact hunread.source shown hshown ▸ hrecords
    exact ⟨hrecords, hrecords.within.stop_le⟩

/-- A module with a procedure that fails, and a session that requires it. -/
def boxedProcedure : List Action :=
  [.start {}, .addSource "/m" "(define (f) (head 5)) (provide f)", .openSession,
    .evalText 40 1 "(require \"/m\")"]

/-- Whether a run fails with one label, at the given place, on a source with the given text. -/
def showsLabel (text : String) (offset length : Nat) : EStateM.Result Halt World Value → Bool
  | .error (.error e) _ =>
    e.place.source.map (·.text) == some text &&
      e.labels?.map (·.map fun label => (label.offset, label.length)) == some [(offset, length)]
  | _ => false

theorem exists_of_showsLabel {text : String} {offset length : Nat}
    {result : EStateM.Result Halt World Value} (h : showsLabel text offset length result) :
    ∃ e w shown label, result = .error (.error e) w ∧ e.place.source = some shown ∧
      shown.text = text ∧ e.labels? = some [label] ∧ label.offset = offset ∧
        label.length = length := by
  rcases result with _ | ⟨halt, w⟩
  · cases h
  · cases halt with
    | outOfFuel => cases h
    | error e =>
        simp only [showsLabel, Bool.and_eq_true, beq_iff_eq, Option.map_eq_some_iff] at h
        obtain ⟨⟨shown, hshown, htext⟩, labels, hlabels, hplaces⟩ := h
        obtain ⟨label, rfl, hplace⟩ := List.map_eq_singleton_iff.1 hplaces
        obtain ⟨hoffset, hlength⟩ := Prod.mk.inj hplace
        exact ⟨e, w, shown, label, rfl, hshown, htext, hlabels, hoffset, hlength⟩

/-- The call `(f)` fails with a label that begins beyond the end of its text, on which it is shown:
the range was recorded when the module was read. -/
theorem boxedProcedure_label_beyond_end :
    ∃ e w label, evalText 40 1 "(f)" (({} : World).after boxedProcedure) = .error (.error e) w ∧
      e.place.source.map (·.text) = some "(f)" ∧ e.labels? = some [label] ∧
      "(f)".utf8ByteSize < label.offset ∧
      ∃ source ∈ handedIn boxedProcedure "(f)", source.text ≠ "(f)" ∧
        ∃ span ∈ e.spans, source.Records span ∧ label.offset = span.start := by
  have hruns : showsLabel "(f)" 12 8
      (evalText 40 1 "(f)" (({} : World).after boxedProcedure)) := by decide +kernel
  obtain ⟨e, w, shown, label, hfails, hshown, htext, hlabels, hoffset, hlength⟩ :=
    exists_of_showsLabel hruns
  have htexts : ∀ action ∈ boxedProcedure, action.HandsInText := by
    simp only [boxedProcedure, List.forall_mem_cons]
    exact ⟨trivial, trivial, trivial, trivial, by simp⟩
  obtain ⟨-, -, -, hspans, hmarks, -⟩ := labels_recorded htexts hfails hlabels
  have hbeyond : "(f)".utf8ByteSize < label.offset := by
    rw [hoffset]
    decide
  refine ⟨e, w, label, hfails, by rw [hshown, Option.map_some, htext], hlabels, hbeyond, ?_⟩
  obtain ⟨span, hspan, message, rfl⟩ := hmarks label (List.mem_singleton_self label)
  obtain ⟨source, hsource, hrecords, hle, hend⟩ := hspans span hspan
  refine ⟨source, hsource, fun hsame => ?_, span, hspan, hrecords, rfl⟩
  rw [hsame] at hend
  exact absurd (hbeyond.trans_le (hle.trans hend)) (Nat.lt_irrefl _)

end HygienicLisp

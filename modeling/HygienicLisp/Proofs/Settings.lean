import HygienicLisp.Config.Document
import Mathlib.Data.List.Basic
import Mathlib.Tactic.MkIffOfInductiveProp

/-!
# What a settings document says

A document is read entry by entry, with the keys met so far (`Config.applyAll`).  What comes out
of it is said setting by setting:

* `ofNode?_mapping`: each setting has the value of the one entry with its key, and its default
  where there is no such entry; a setting that is mentioned twice or is no scalar is refused, and
  so is a key that is no scalar, whether it is the key of a setting or not;
* `ofNode?_perm`: so the order of the entries does not matter, neither to the settings nor to
  whether the document is refused.
-/

namespace HygienicLisp.Config

open Yaml (Scalar Node)

/-- The key that a node is. -/
def keyOf? (node : Node) : Option String := node.scalar?.map fun s => String.ofList s.text

/-- The nodes that some entries have under a key. -/
def under (key : String) (entries : List (Node × Node)) : List Node :=
  (entries.filter fun entry => keyOf? entry.1 = some key).map Prod.snd

variable {α : Type} {read : Scalar → Option α}

/-- The value of a setting with the given nodes under its key: its default where there are none,
and where there is one, what its scalar denotes. -/
def settingFrom? (read : Scalar → Option α) (default : α) : List Node → Option α
  | [] => some default
  | [node] => node.scalar? >>= read
  | _ => none

/-- The value of a setting after the entries that are left, where `seen` holds the keys of the
settings before: a setting that has been seen may not be mentioned again. -/
def remaining? (read : Scalar → Option α) (value : α) (seen : List String) (key : String)
    (entries : List (Node × Node)) : Option α :=
  if key ∈ seen then if under key entries = [] then some value else none
  else settingFrom? read value (under key entries)

/-! ## One entry -/

section Entry

variable {name key : String} {entry : Node × Node} {entries : List (Node × Node)}
  {value : α} {seen : List String}

theorem under_cons_self (hname : keyOf? entry.1 = some key) :
    under key (entry :: entries) = entry.2 :: under key entries := by
  simp [under, hname]

theorem under_cons_of_ne (hname : keyOf? entry.1 = some name) (hne : name ≠ key) :
    under key (entry :: entries) = under key entries := by
  simp [under, hname, hne]

/-- An entry leaves the other settings as they are, and what is known of them. -/
theorem remaining?_cons_of_ne (hname : keyOf? entry.1 = some name) (hne : name ≠ key) :
    remaining? read value seen key (entry :: entries) = remaining? read value seen key entries := by
  simp only [remaining?, under_cons_of_ne hname hne]

theorem remaining?_seen_of_ne (hne : name ≠ key) :
    remaining? read value (name :: seen) key entries = remaining? read value seen key entries := by
  simp [remaining?, hne.symm]

theorem remaining?_cons_of_mem (hname : keyOf? entry.1 = some key) (hseen : key ∈ seen) :
    remaining? read value seen key (entry :: entries) = none := by
  simp [remaining?, hseen, under_cons_self hname]

/-- The first entry of a setting gives it its value, and after it the setting has been seen. -/
theorem remaining?_cons_self (hname : keyOf? entry.1 = some key) (hseen : key ∉ seen) :
    remaining? read value seen key (entry :: entries) =
      (entry.2.scalar? >>= read).bind fun new =>
        remaining? read new (key :: seen) key entries := by
  simp only [remaining?, hseen, if_false, List.mem_cons_self, if_true, under_cons_self hname]
  cases under key entries with
  | nil => simp [settingFrom?]
  | cons node nodes => simp [settingFrom?]

end Entry

/-! ## All entries -/

/-- What the scalar of a named setting denotes: its text. -/
def text? (s : Scalar) : Option String := some (String.ofList s.text)

/-- The entries that are left make `result` of the settings `config`, setting by setting. -/
@[mk_iff]
structure Gives (config : Config) (seen : List String) (entries : List (Node × Node))
    (result : Config) : Prop where
  keys : ∀ entry ∈ entries, (keyOf? entry.1).isSome
  kernelModule : remaining? text? config.kernelModule seen "kernel_module" entries
    = some result.kernelModule
  topLevelName : remaining? text? config.topLevelName seen "top_level_name" entries
    = some result.topLevelName
  maxExpansionDepth : remaining? limit? config.maxExpansionDepth seen "max_expansion_depth" entries
    = some result.maxExpansionDepth

section All

variable {config result : Config} {seen : List String} {entry : Node × Node}
  {entries : List (Node × Node)} {name : String}

theorem applyAll_cons (hname : keyOf? entry.1 = some name) :
    applyAll config seen (entry :: entries) =
      if name ∉ settingKeys then applyAll config seen entries
      else if name ∈ seen then none
      else entry.2.scalar?.bind fun s =>
        (config.set? name s).bind fun changed => applyAll changed (name :: seen) entries := by
  obtain ⟨node, value⟩ := entry
  obtain ⟨s, hscalar, rfl⟩ := Option.map_eq_some_iff.mp hname
  simp [applyAll, hscalar]

theorem applyAll_cons_of_none (hname : keyOf? entry.1 = none) :
    applyAll config seen (entry :: entries) = none := by
  obtain ⟨node, value⟩ := entry
  simp [applyAll, Option.map_eq_none_iff.mp hname]

/-- The keys of the settings, one by one. -/
theorem mem_settingKeys :
    name ∈ settingKeys ↔
      name = "kernel_module" ∨ name = "top_level_name" ∨ name = "max_expansion_depth" := by
  simp [settingKeys]

theorem applyAll_eq_some :
    applyAll config seen entries = some result ↔ Gives config seen entries result := by
  induction entries generalizing config seen with
  | nil =>
    cases config; cases result
    simp [applyAll, gives_iff, remaining?, under, settingFrom?]
  | cons entry entries ih =>
    cases hname : keyOf? entry.1 with
    | none => simp [applyAll_cons_of_none hname, gives_iff, hname]
    | some name =>
      have hkeys : (∀ e ∈ entry :: entries, (keyOf? e.1).isSome) ↔
          ∀ e ∈ entries, (keyOf? e.1).isSome := by simp [hname]
      rw [applyAll_cons hname, gives_iff, hkeys]
      by_cases hsetting : name ∉ settingKeys
      · have hne : ∀ key ∈ settingKeys, name ≠ key := fun key hkey heq => hsetting (heq ▸ hkey)
        simp only [mem_settingKeys, forall_eq_or_imp, forall_eq] at hne
        rw [if_pos hsetting, ih, gives_iff, remaining?_cons_of_ne hname hne.1,
          remaining?_cons_of_ne hname hne.2.1, remaining?_cons_of_ne hname hne.2.2]
      · rw [if_neg hsetting]
        have hcases := mem_settingKeys.mp (not_not.mp hsetting)
        by_cases hseen : name ∈ seen
        · rw [if_pos hseen]
          obtain rfl | rfl | rfl := hcases <;> simp only [remaining?_cons_of_mem hname hseen] <;>
            simp only [reduceCtorEq, false_and, and_false]
        · rw [if_neg hseen]
          cases hvalue : entry.2.scalar? with
          | none =>
            obtain rfl | rfl | rfl := hcases <;>
              simp only [remaining?_cons_self hname hseen, hvalue] <;>
              simp only [Option.bind_none, Option.bind_eq_bind, reduceCtorEq, false_and, and_false]
          | some s =>
            have hkernelTop : "kernel_module" ≠ "top_level_name" := by decide
            have hkernelLimit : "kernel_module" ≠ "max_expansion_depth" := by decide
            have htopLimit : "top_level_name" ≠ "max_expansion_depth" := by decide
            rw [Option.bind_some]
            obtain rfl | rfl | rfl := hcases
            · rw [remaining?_cons_self hname hseen, hvalue, remaining?_cons_of_ne hname hkernelTop,
                remaining?_cons_of_ne hname hkernelLimit]
              refine ih.trans ((gives_iff ..).trans ?_)
              rw [remaining?_seen_of_ne hkernelTop, remaining?_seen_of_ne hkernelLimit]
              rfl
            · rw [remaining?_cons_self hname hseen, hvalue,
                remaining?_cons_of_ne hname hkernelTop.symm,
                remaining?_cons_of_ne hname htopLimit]
              refine ih.trans ((gives_iff ..).trans ?_)
              rw [remaining?_seen_of_ne hkernelTop.symm, remaining?_seen_of_ne htopLimit]
              rfl
            · rw [remaining?_cons_self hname hseen, hvalue,
                remaining?_cons_of_ne hname hkernelLimit.symm,
                remaining?_cons_of_ne hname htopLimit.symm]
              have hset : config.set? "max_expansion_depth" s =
                  (limit? s).map fun limit => { config with maxExpansionDepth := limit } :=
                if_pos rfl
              rw [hset, show (some s >>= limit?) = limit? s from rfl]
              cases limit? s with
              | none => simp only [Option.map_none, Option.bind_none, reduceCtorEq, and_false]
              | some limit =>
                rw [Option.map_some, Option.bind_some]
                refine ih.trans ((gives_iff ..).trans ?_)
                rw [remaining?_seen_of_ne hkernelLimit.symm,
                  remaining?_seen_of_ne htopLimit.symm]
                rfl

end All

/-- A document says its settings one by one: every key is a scalar, and each setting is its
default or what its one entry says. -/
theorem ofNode?_mapping {entries : List (Node × Node)} {config : Config} :
    ofNode? (.mapping entries) = some config ↔
      (∀ entry ∈ entries, (keyOf? entry.1).isSome) ∧
      settingFrom? text? "#%kernel" (under "kernel_module" entries) = some config.kernelModule ∧
      settingFrom? text? "top" (under "top_level_name" entries) = some config.topLevelName ∧
      settingFrom? limit? none (under "max_expansion_depth" entries)
        = some config.maxExpansionDepth := by
  simp [ofNode?, applyAll_eq_some, gives_iff, remaining?]

/-! ## The order of the entries -/

theorem under_perm {key : String} {entries others : List (Node × Node)}
    (hperm : entries.Perm others) : (under key entries).Perm (under key others) :=
  (hperm.filter _).map _

/-- One node at most counts, so the order of the nodes under a key does not. -/
theorem settingFrom?_perm {default : α} {nodes others : List Node} (hperm : nodes.Perm others) :
    settingFrom? read default nodes = settingFrom? read default others := by
  match nodes, hperm with
  | [], hperm => rw [hperm.nil_eq]
  | [node], hperm => rw [hperm.singleton_eq]
  | _ :: _ :: _, hperm =>
    have hlength := hperm.length_eq
    match others, hlength with
    | _ :: _ :: _, _ => rfl

/-- The order of the entries of a document does not matter. -/
theorem ofNode?_perm {entries others : List (Node × Node)} (hperm : entries.Perm others) :
    ofNode? (.mapping entries) = ofNode? (.mapping others) := by
  refine Option.ext fun config => ?_
  simp only [ofNode?_mapping, settingFrom?_perm (under_perm hperm), hperm.mem_iff]

example : (ofDocument "max_expansion_depth: 8\nother: [1]\nkernel_module: k\n").toOption =
    some { kernelModule := "k", maxExpansionDepth := some 8 } := by
  decide +kernel

end HygienicLisp.Config

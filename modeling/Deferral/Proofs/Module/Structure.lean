import Deferral.Module
import Mathlib.Data.List.Basic
import Mathlib.Data.List.Duplicate
import Mathlib.Data.List.Nodup

/-!
# The structure of modules

Both ways of making a module, from given functions (`Module.build`) and from declarations
(`Module.declare`), come to a module whose exports are functions of it and whose functions have different
names (`Module.Structured`). The first has later functions replace earlier ones of the same name, the
second refuses them (`Module.declare_fails_iff`). In a structured module every name has exactly one
`Standing`, and that decides what each of the three ways of looking it up answers
(`Module.Structured.standing`).
-/

set_option autoImplicit false

namespace Deferral

/-! ## Lists of names -/

theorem mem_distinct {name : String} {names : List String} : name ∈ distinct names ↔ name ∈ names := by
  induction names with
  | nil => rfl
  | cons first rest ih =>
    by_cases h : name = first <;> simp [distinct, ih, h]

/-- No name is found a second time if the names differ from each other and from those seen before. -/
theorem firstRepeated_eq_none_iff {seen names : List String} :
    firstRepeated seen names = none ↔ names.Nodup ∧ ∀ name ∈ names, name ∉ seen := by
  induction names generalizing seen with
  | nil => simp [firstRepeated]
  | cons first rest ih =>
    by_cases h : first ∈ seen
    · simp [firstRepeated, h]
    · simp only [firstRepeated, List.contains_iff_mem, h, if_false, ih, List.nodup_cons,
        List.mem_cons, not_or]
      grind

/-- A name that is found has been seen before, or is in the list twice. -/
theorem of_firstRepeated {name : String} {seen names : List String}
    (h : firstRepeated seen names = some name) :
    name ∈ seen ∧ name ∈ names ∨ List.Duplicate name names := by
  induction names generalizing seen with
  | nil => cases h
  | cons first rest ih =>
    unfold firstRepeated at h
    split at h
    · rename_i hseen
      cases h
      exact .inl ⟨List.contains_iff_mem.1 hseen, List.mem_cons_self⟩
    · rcases ih h with ⟨hmem, hrest⟩ | htwice
      · rcases List.mem_cons.1 hmem with rfl | hseen
        · exact .inr hrest.duplicate_cons_self
        · exact .inl ⟨hseen, List.mem_cons_of_mem _ hrest⟩
      · exact .inr (htwice.duplicate_cons first)

namespace Module

/-- The names of functions, in order. -/
abbrev names (functions : List (String × FunctionId)) : List String := functions.map (·.1)

/-- A module as it is made: its exports are functions of it, and no two functions share a name. -/
structure Structured (m : Module) : Prop where
  exported : ∀ name ∈ m.exports, name ∈ names m.functions
  unique : (names m.functions).Nodup

/-! ## Looking up names -/

/-- What a name is to a module. -/
inductive Standing where
  | exported (id : FunctionId)
  | hidden (id : FunctionId)
  | unknown

/-- The name has the standing, and every way of looking it up agrees. -/
def Stands (m : Module) (name : String) : Standing → Prop
  | .exported id => name ∈ m.exports ∧ (name, id) ∈ m.functions ∧ m.resolve name = .ok id ∧
    m.lookupExport? name = some id
  | .hidden id => name ∉ m.exports ∧ (name, id) ∈ m.functions ∧
    m.resolve name = .error (.undefined name (.privateFunction m.name.text)) ∧
    m.lookupExport? name = none ∧ m.resolveInternal name = .ok id
  | .unknown => name ∉ names m.functions ∧
    m.resolve name = .error (.undefined name (.unknownFunction m.name.text)) ∧
    m.resolveInternal name = .error (.undefined name (.unknownFunction m.name.text))

variable {m : Module} {name : String} {id : FunctionId}

theorem isExported_iff : m.isExported name = true ↔ name ∈ m.exports := List.contains_iff_mem

theorem mem_of_find? (h : m.find? name = some id) : (name, id) ∈ m.functions := by
  obtain ⟨before, after, hsplit, -⟩ := List.lookup_eq_some_iff.1 h
  rw [hsplit]
  exact List.mem_append_right _ List.mem_cons_self

theorem find?_eq_none_iff : m.find? name = none ↔ name ∉ names m.functions := by
  rw [find?, List.lookup_eq_none_iff]
  simp only [bne_iff_ne, List.mem_map, not_exists, not_and]
  exact ⟨fun h f hf he => h f hf he.symm, fun h f hf he => h f hf he.symm⟩

theorem Structured.standing (h : m.Structured) (name : String) :
    ∃! standing, m.Stands name standing := by
  cases hfound : m.find? name with
  | none =>
    have habsent := find?_eq_none_iff.1 hfound
    have hinternal : m.resolveInternal name =
        .error (.undefined name (.unknownFunction m.name.text)) := by
      rw [resolveInternal, hfound]
    refine ⟨.unknown, ⟨habsent, by rw [resolve, hinternal], hinternal⟩, fun standing hs => ?_⟩
    cases standing with
    | exported id => exact absurd (List.mem_map_of_mem hs.2.1) habsent
    | hidden id => exact absurd (List.mem_map_of_mem hs.2.1) habsent
    | unknown => rfl
  | some id =>
    have hinternal : m.resolveInternal name = .ok id := by rw [resolveInternal, hfound]
    have hmem := mem_of_find? hfound
    have hsame : ∀ id', (name, id') ∈ m.functions → id' = id := fun id' hmem' =>
      congrArg Prod.snd (List.inj_on_of_nodup_map h.unique hmem' hmem rfl)
    by_cases hexported : name ∈ m.exports
    · refine ⟨.exported id, ⟨hexported, hmem, ?_, ?_⟩, fun standing hs => ?_⟩
      · simp only [resolve, hinternal, isExported_iff, if_pos hexported]
      · simp only [lookupExport?, isExported_iff, if_pos hexported, hfound]
      · cases standing with
        | exported id' => rw [hsame id' hs.2.1]
        | hidden id' => exact absurd hexported hs.1
        | unknown => exact absurd (List.mem_map_of_mem hmem) hs.1
    · refine ⟨.hidden id, ⟨hexported, hmem, ?_, ?_, hinternal⟩, fun standing hs => ?_⟩
      · simp only [resolve, hinternal, isExported_iff, if_neg hexported]
      · simp only [lookupExport?, isExported_iff, if_neg hexported]
      · cases standing with
        | exported id' => exact absurd hs.1 hexported
        | hidden id' => rw [hsame id' hs.2.1]
        | unknown => exact absurd (List.mem_map_of_mem hmem) hs.1

/-! ## Modules of declarations -/

variable {module : ModuleName} {exports defined declared : List String}
  {functions : List (String × FunctionId)} {e : Error}

theorem checkExports_eq_ok_iff :
    checkExports module exports defined = .ok () ↔ ∀ name ∈ exports, name ∈ defined := by
  unfold checkExports
  split <;> rename_i hfound
  · have hmissing := List.find?_some hfound
    have hmem := List.mem_of_find?_eq_some hfound
    simp only [reduceCtorEq, false_iff]
    exact fun h => by simp [h _ hmem] at hmissing
  · simpa using hfound

theorem of_checkExports_error (h : checkExports module exports defined = .error e) :
    ∃ name ∈ exports, name ∉ defined ∧ e = .resolution (.missingExport module.text name) := by
  unfold checkExports at h
  split at h
  · rename_i name hfound
    cases h
    exact ⟨name, List.mem_of_find?_eq_some hfound, by simpa using List.find?_some hfound, rfl⟩
  · cases h

theorem checkDistinct_eq_ok_iff : checkDistinct module declared = .ok () ↔ declared.Nodup := by
  have hiff : firstRepeated [] declared = none ↔ _ := firstRepeated_eq_none_iff
  unfold checkDistinct
  split <;> simp_all

theorem of_checkDistinct_error (h : checkDistinct module declared = .error e) :
    ∃ name, List.Duplicate name declared ∧ e = .resolution (.duplicateFunction module.text name) := by
  unfold checkDistinct at h
  split at h
  · rename_i name hfound
    cases h
    refine ⟨name, (of_firstRepeated hfound).resolve_left ?_, rfl⟩
    exact fun hseen => List.not_mem_nil hseen.1
  · cases h

/-- The checks of a declaration, one after the other. -/
theorem declare_eq : declare module exports functions =
    match checkExports module (distinct exports) (names functions) with
    | .error e => .error e
    | .ok () =>
      match checkDistinct module (names functions) with
      | .error e => .error e
      | .ok () => .ok ⟨module, distinct exports, functions⟩ := by
  change Except.bind (checkExports module (distinct exports) (names functions)) (fun _ =>
    Except.bind (checkDistinct module (names functions)) fun _ => _) = _
  cases checkExports module (distinct exports) (names functions) with
  | error e => rfl
  | ok u => cases checkDistinct module (names functions) <;> rfl

/-- A module of declarations has the functions as they are declared. -/
theorem declare_eq_ok_iff : declare module exports functions = .ok m ↔
    (∀ name ∈ exports, name ∈ names functions) ∧ (names functions).Nodup ∧
      m = ⟨module, distinct exports, functions⟩ := by
  have hexports : checkExports module (distinct exports) (names functions) = .ok () ↔ _ :=
    checkExports_eq_ok_iff
  have hdistinct : checkDistinct module (names functions) = .ok () ↔ _ := checkDistinct_eq_ok_iff
  simp only [mem_distinct] at hexports
  rw [← hexports, ← hdistinct, declare_eq]
  cases checkExports module (distinct exports) (names functions) with
  | error e => simp
  | ok u => cases checkDistinct module (names functions) <;> simp [eq_comm]

/-- A declaration is refused for an export that is not declared, or for a name that is declared
twice. -/
theorem of_declare_error (h : declare module exports functions = .error e) :
    (∃ name ∈ exports, name ∉ names functions ∧
      e = .resolution (.missingExport module.text name)) ∨
    ∃ name, List.Duplicate name (names functions) ∧
      e = .resolution (.duplicateFunction module.text name) := by
  rw [declare_eq] at h
  split at h
  · rename_i hexports
    cases h
    obtain ⟨name, hname, hmissing⟩ := of_checkExports_error hexports
    exact .inl ⟨name, mem_distinct.1 hname, hmissing⟩
  · split at h
    · rename_i hdistinct
      cases h
      exact .inr (of_checkDistinct_error hdistinct)
    · cases h

theorem declare_structured (h : declare module exports functions = .ok m) :
    m.Structured ∧ ∀ f ∈ m.functions, f ∈ functions := by
  obtain ⟨hexports, hunique, rfl⟩ := declare_eq_ok_iff.1 h
  exact ⟨⟨fun name hname => hexports name (mem_distinct.1 hname), hunique⟩, fun _ hf => hf⟩

/-- A declaration is refused exactly if an export is not declared or a name is declared twice. -/
theorem declare_fails_iff : (∃ e, declare module exports functions = .error e) ↔
    (∃ name ∈ exports, name ∉ names functions) ∨ ¬ (names functions).Nodup := by
  constructor
  · rintro ⟨e, he⟩
    rcases of_declare_error he with ⟨name, hname, hmissing, -⟩ | ⟨name, htwice, -⟩
    · exact .inl ⟨name, hname, hmissing⟩
    · exact .inr htwice.not_nodup
  · intro h
    cases hdeclared : declare module exports functions with
    | error e => exact ⟨e, rfl⟩
    | ok m =>
      obtain ⟨hexports, hunique, -⟩ := declare_eq_ok_iff.1 hdeclared
      rcases h with ⟨name, hname, hmissing⟩ | htwice
      · exact absurd (hexports name hname) hmissing
      · exact absurd hunique htwice

/-! ## Modules of given functions -/

theorem names_insertFunction (functions : List (String × FunctionId)) (f : String × FunctionId) :
    names (insertFunction functions f) =
      if f.1 ∈ names functions then names functions else names functions ++ [f.1] := by
  induction functions with
  | nil => rfl
  | cons g rest ih =>
    unfold insertFunction
    by_cases h : g.1 = f.1
    · simp [h]
    · have hne : f.1 ≠ g.1 := fun he => h he.symm
      simp only [beq_iff_eq, h, if_false, names, List.map_cons, List.mem_cons, hne, false_or]
      rw [← names, ih]
      split <;> rfl

theorem of_mem_insertFunction {f g : String × FunctionId} (h : g ∈ insertFunction functions f) :
    g = f ∨ g ∈ functions := by
  induction functions with
  | nil => exact .inl (List.mem_singleton.1 h)
  | cons first rest ih =>
    unfold insertFunction at h
    split at h
    · exact (List.mem_cons.1 h).imp_right (List.mem_cons_of_mem _)
    · rcases List.mem_cons.1 h with rfl | hrest
      · exact .inr List.mem_cons_self
      · exact (ih hrest).imp_right (List.mem_cons_of_mem _)

theorem nodup_insertFunction (h : (names functions).Nodup) (f : String × FunctionId) :
    (names (insertFunction functions f)).Nodup := by
  rw [names_insertFunction]
  split
  · exact h
  · rename_i hnew
    exact h.append (List.nodup_singleton _) (by simpa using hnew)

/-- The functions that are left of given ones are among them, and differ in their names. -/
theorem foldl_insertFunction (given : List (String × FunctionId)) (h : (names functions).Nodup) :
    (names (given.foldl insertFunction functions)).Nodup ∧
      ∀ f ∈ given.foldl insertFunction functions, f ∈ functions ∨ f ∈ given := by
  induction given generalizing functions with
  | nil => exact ⟨h, fun f hf => .inl hf⟩
  | cons g rest ih =>
    obtain ⟨hunique, hmem⟩ := ih (nodup_insertFunction h g)
    refine ⟨hunique, fun f hf => ?_⟩
    rcases hmem f hf with hinserted | hrest
    · rcases of_mem_insertFunction hinserted with rfl | hf
      · exact .inr List.mem_cons_self
      · exact .inl hf
    · exact .inr (List.mem_cons_of_mem _ hrest)

theorem build_eq : build module exports functions =
    match checkExports module (distinct exports) (names (functions.foldl insertFunction [])) with
    | .error e => .error e
    | .ok () => .ok ⟨module, distinct exports, functions.foldl insertFunction []⟩ := by
  change Except.bind (checkExports module (distinct exports)
    (names (functions.foldl insertFunction []))) (fun _ => _) = _
  cases checkExports module (distinct exports) (names (functions.foldl insertFunction [])) <;> rfl

theorem build_structured (h : build module exports functions = .ok m) :
    m.Structured ∧ ∀ f ∈ m.functions, f ∈ functions := by
  rw [build_eq] at h
  split at h
  · cases h
  · rename_i hexports
    cases h
    have hempty : (names []).Nodup := List.nodup_nil
    obtain ⟨hunique, hmem⟩ := foldl_insertFunction functions hempty
    exact ⟨⟨checkExports_eq_ok_iff.1 hexports, hunique⟩,
      fun f hf => (hmem f hf).resolve_left List.not_mem_nil⟩

end Module

end Deferral

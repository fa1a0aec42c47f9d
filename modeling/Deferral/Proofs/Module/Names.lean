import Deferral.Module

/-!
# Module names and their texts

Reading a text cuts it at every dot, and writing puts the dots back, so every text is written as it was
read (`ModuleName.text_parse`). The other way round, parts come back from their text exactly if there
is at least one and none has a dot in it (`ModuleName.parse_text_eq_iff`): a name that is read always
has such parts, and where they are such, cutting undoes joining.

Registries are keyed by names, not by texts (`Registry.get?_register`). So a registered module is found
under the name that is read from its printed one exactly if its name comes back from its text.
-/

set_option autoImplicit false

namespace Deferral

namespace ModuleName

/-- There is a part, and no dot inside any part. -/
def Dotted (name : ModuleName) : Prop := name.parts ≠ [] ∧ ∀ part ∈ name.parts, '.' ∉ part.toList

/-! ## Cutting and joining -/

theorem pieces_eq_splitOn (text : List Char) : pieces text = text.splitOn '.' := by
  induction text with
  | nil => rfl
  | cons c rest ih =>
    rw [pieces, List.splitOn_cons_eq_if_modifyHead, ← ih]
    by_cases hc : c = '.'
    · rw [if_pos hc, if_pos (beq_iff_eq.2 hc)]
    · rw [if_neg hc, if_neg (mt beq_iff_eq.1 hc)]
      cases hrest : pieces rest with
      | nil => exact absurd (ih.symm.trans hrest) (List.splitOn_ne_nil '.' rest)
      | cons piece others => rfl

/-- No piece contains what was cut at. -/
theorem dot_not_mem_of_mem_pieces {text piece : List Char} (h : piece ∈ pieces text) :
    '.' ∉ piece := by
  induction text generalizing piece with
  | nil =>
    obtain rfl := List.mem_singleton.1 h
    exact List.not_mem_nil
  | cons c rest ih =>
    unfold pieces at h
    split at h
    · rcases List.mem_cons.1 h with rfl | hrest
      · exact List.not_mem_nil
      · exact ih hrest
    · rename_i hc
      have hhead : ∀ {first : List Char}, '.' ∉ first → '.' ∉ c :: first := fun hfirst hmem =>
        (List.mem_cons.1 hmem).elim (fun he => hc he.symm) hfirst
      split at h
      · obtain rfl := List.mem_singleton.1 h
        exact hhead List.not_mem_nil
      · rename_i first others hpieces
        rw [hpieces] at ih
        rcases List.mem_cons.1 h with rfl | hothers
        · exact hhead (ih List.mem_cons_self)
        · exact ih (List.mem_cons_of_mem _ hothers)

theorem join_eq_intercalate (parts : List String) : join parts = ".".intercalate parts := by
  induction parts with
  | nil => rw [join, String.intercalate_nil]
  | cons part rest ih =>
    cases rest with
    | nil => rw [join, String.intercalate_singleton]
    | cons next rest => rw [join, ih, String.intercalate_cons_cons]

theorem toList_text (name : ModuleName) :
    name.text.toList = ['.'].intercalate (name.parts.map String.toList) := by
  rw [text, join_eq_intercalate, String.toList_intercalate]
  rfl

theorem map_toList_parts_parse (s : String) :
    (parse s).parts.map String.toList = s.toList.splitOn '.' := by
  rw [parse, List.map_map, ← pieces_eq_splitOn]
  exact List.map_id'' (fun _ => String.toList_ofList) _

/-! ## Reading and writing -/

/-- A text is written as it was read. -/
theorem text_parse (s : String) : (parse s).text = s := by
  refine String.toList_injective ?_
  rw [toList_text, map_toList_parts_parse, List.intercalate_splitOn]

theorem dotted_parse (s : String) : (parse s).Dotted := by
  refine ⟨fun hnil => List.splitOn_ne_nil '.' s.toList ?_, fun part hpart => ?_⟩
  · rw [← map_toList_parts_parse, hnil, List.map_nil]
  · obtain ⟨piece, hpiece, rfl⟩ := List.mem_map.1 hpart
    rw [String.toList_ofList]
    exact dot_not_mem_of_mem_pieces hpiece

/-- Parts without dots are read as they were written. -/
theorem Dotted.parse_text {name : ModuleName} (h : name.Dotted) : parse name.text = name := by
  have hsplit : name.text.toList.splitOn '.' = name.parts.map String.toList := by
    rw [toList_text]
    refine List.splitOn_intercalate '.' (fun piece hpiece => ?_) (mt List.map_eq_nil_iff.1 h.1)
    obtain ⟨part, hpart, rfl⟩ := List.mem_map.1 hpiece
    exact h.2 part hpart
  rw [← map_toList_parts_parse] at hsplit
  have hparts := (List.map_inj_right fun _ _ => String.toList_injective).1 hsplit
  cases name
  exact congrArg mk hparts

theorem parse_text_eq_iff {name : ModuleName} : parse name.text = name ↔ name.Dotted :=
  ⟨fun h => h ▸ dotted_parse name.text, Dotted.parse_text⟩

end ModuleName

/-! ## Names as keys -/

/-- A registry has a module under its own name, and all others as before. -/
theorem Registry.get?_register (registry : Registry) (m : Module) (name : ModuleName) :
    (registry.register m).get? name = if m.name = name then some m else registry.get? name := by
  induction registry with
  | nil => by_cases h : m.name = name <;> simp [register, get?, h]
  | cons first rest ih =>
    unfold get? at ih ⊢
    by_cases hfirst : first.name = m.name
    · by_cases h : m.name = name <;> simp [register, hfirst, h]
    · by_cases hname : first.name = name
      · subst hname
        simp [register, hfirst, Ne.symm hfirst]
      · simp [register, hfirst, hname, ih]

theorem Registry.name_of_get? {registry : Registry} {m : Module} {name : ModuleName}
    (h : registry.get? name = some m) : m.name = name := by
  simpa using List.find?_some h

/-- Whatever was there before, a module is found under a name exactly if that is its own. -/
theorem Registry.get?_register_eq_some_iff (registry : Registry) (m : Module) (name : ModuleName) :
    (registry.register m).get? name = some m ↔ m.name = name := by
  refine ⟨Registry.name_of_get?, fun h => ?_⟩
  rw [get?_register, if_pos h]

/-- Every text is written as it was read. Parts are read as they were written exactly if there is one
and none has a dot in it. Of such names, those with the same text are the same key of every registry;
and a registered module is found under the name that is read from its printed name exactly if its name
is such. -/
theorem module_names_round_trip :
    (∀ s : String, (ModuleName.parse s).text = s) ∧
    (∀ parts : List String, ModuleName.parse (ModuleName.text ⟨parts⟩) = ⟨parts⟩ ↔
      parts ≠ [] ∧ ∀ part ∈ parts, '.' ∉ part.toList) ∧
    (∀ a b : ModuleName, a.Dotted → b.Dotted → a.text = b.text →
      a = b ∧ ∀ (registry : Registry) (m : Module), m.name = a →
        (registry.register m).get? b = some m) ∧
    ∀ (registry : Registry) (m : Module),
      (registry.register m).get? (ModuleName.parse m.name.text) = some m ↔ m.name.Dotted := by
  refine ⟨ModuleName.text_parse, fun parts => ModuleName.parse_text_eq_iff, fun a b ha hb htext => ?_,
    fun registry m => ?_⟩
  · have hab : a = b := by rw [← ha.parse_text, htext, hb.parse_text]
    exact ⟨hab, fun registry m hm =>
      (Registry.get?_register_eq_some_iff registry m b).2 (hm.trans hab)⟩
  · rw [Registry.get?_register_eq_some_iff, eq_comm]
    exact ModuleName.parse_text_eq_iff

/-- A name with empty parts, written down and read. -/
theorem module_names_round_trip_edged :
    let written : ModuleName := ⟨["", "Demo", ""]⟩
    let read := ModuleName.parse ".Demo."
    let m : Module := ⟨written, [], []⟩
    written.Dotted ∧ read.Dotted ∧ written.text = read.text ∧ written = read ∧
      (Registry.register [] m).get? read = some m := by
  intro written read m
  have hwritten : written.Dotted := by simp [written, ModuleName.Dotted]
  have hread : read.Dotted := ModuleName.dotted_parse ".Demo."
  have htext : written.text = read.text := (ModuleName.text_parse ".Demo.").symm
  obtain ⟨heq, hfound⟩ := module_names_round_trip.2.2.1 written read hwritten hread htext
  exact ⟨hwritten, hread, htext, heq, hfound [] m rfl⟩

end Deferral

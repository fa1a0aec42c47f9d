import Deferral.Proofs.Renaming.Work
import Deferral.Proofs.Value.Legible

/-!
# Texts do not show identities

A function is written by its name and a promise by what it holds, so renamed values and errors are
written as before (`Value.render_rename`, `Error.message_rename`), and a handler sees the same triple
(`Error.toTriple_rename`). The texts of promises are looked up with a bound that depends on how many
there are. Beyond that it does not matter which bound it is, so promises on one side that the other one
does not have make no difference (`Directory.Renames.labels`).
-/

set_option autoImplicit false

namespace Deferral

/-! ## Values and errors -/

/-- The second labels write what is renamed as the first ones do what it stands for. -/
structure Labels.Renames (r : Renaming) (labels labels' : Labels) : Prop where
  function : ∀ id, labels'.function (r.function id) = labels.function id
  promise : ∀ p, labels'.promise (r.promise p) = labels.promise p

section

variable {r : Renaming} {labels labels' : Labels}

theorem Seq.writtenText?_rename (s : Seq Value) :
    (s.map (Value.rename r)).writtenText? = s.writtenText? := by
  simp only [Seq.writtenText?, Seq.isEmpty_map, Seq.text?_rename]

namespace Value

mutual

theorem render_rename (h : labels.Renames r labels') (style : Style) :
    ∀ v : Value, (v.rename r).render labels' style = v.render labels style
  | .unit => rfl
  | .bool _ => rfl
  | .byte _ => rfl
  | .int _ => rfl
  | .float _ => rfl
  | .char _ => rfl
  | .symbol _ => rfl
  | .seq s => by
    rw [rename_seq, render, render, Seq.writtenText?_rename, renderSeq_rename h style s]
  | .tuple items => by rw [rename_tuple, render, render, renderItems_rename h style items]
  | .set items => by rw [rename_set, render, render, renderItems_rename h style items]
  | .dict entries => by rw [rename_dict, render, render, renderEntries_rename h style entries]
  | .function id => h.function id
  | .module _ => rfl
  | .promise p => by
    cases style with
    | plain => rfl
    | quoted => exact h.promise p
termination_by structural v => v

theorem renderSeq_rename (h : labels.Renames r labels') (style : Style) :
    ∀ s : Seq Value, renderSeq labels' style (s.map (rename r)) = renderSeq labels style s
  | ⟨front, back⟩ => by
    rw [Seq.map, renderSeq, renderSeq, renderItems_rename h style front,
      renderItems_rename h style back]
termination_by structural s => s

theorem renderItems_rename (h : labels.Renames r labels') (style : Style) :
    ∀ items : List Value, renderItems labels' style (items.map (rename r)) =
      renderItems labels style items
  | [] => rfl
  | v :: rest => by
    rw [List.map_cons, renderItems, renderItems, render_rename h style v,
      renderItems_rename h style rest]
termination_by structural items => items

theorem renderEntries_rename (h : labels.Renames r labels') (style : Style) :
    ∀ entries : List (Value × Value),
      renderEntries labels' style (entries.map (Prod.map (rename r) (rename r))) =
        renderEntries labels style entries
  | [] => rfl
  | e :: rest => by
    rw [List.map_cons, renderEntries, renderEntries, renderEntry_rename h style e,
      renderEntries_rename h style rest]
termination_by structural entries => entries

theorem renderEntry_rename (h : labels.Renames r labels') (style : Style) :
    ∀ e : Value × Value,
      renderEntry labels' style (Prod.map (rename r) (rename r) e) = renderEntry labels style e
  | (k, v) => by
    rw [Prod.map_apply, renderEntry, renderEntry, render_rename h style k, render_rename h style v]
termination_by structural e => e

end

end Value

namespace Error

variable (h : labels.Renames r labels')
include h

theorem message_rename (e : Error) : (e.rename r).message labels' = e.message labels := by
  induction e with
  | typeError operation values =>
    have htexts : (values.map (Value.rename r)).map (fun v => v.typeName ++ " " ++ v.quoted labels') =
        values.map (fun v => v.typeName ++ " " ++ v.quoted labels) := by
      rw [List.map_map]
      refine List.map_congr_left fun v _ => ?_
      rw [Function.comp_apply, Value.typeName_rename, Value.quoted, Value.render_rename h,
        Value.quoted]
    exact congrArg (fun texts => "Type error: operation \"" ++ operation ++ "\" not defined for " ++
      commaJoin texts) htexts
  | traced cause stack ih => exact ih
  | _ => rfl

theorem text_rename (e : Error) : (e.rename r).text labels' = e.text labels := by
  have hmessage := message_rename h e.root
  rw [text, text, root_rename]
  cases hroot : e.root <;> rw [hroot] at hmessage <;> first | exact hmessage | rfl

/-- A handler sees the same triple. -/
theorem toTriple_rename (fallback : StackTrace) (e : Error) :
    (e.rename r).toTriple labels' fallback = e.toTriple labels fallback := by
  rw [toTriple, toTriple, tag_rename, text_rename h, stack?_rename]

end Error

end

section

variable (r : Renaming)

theorem StackFrame.rename_toValue (frame : StackFrame) : frame.toValue.rename r = frame.toValue := by
  have hposition : ∀ n, (positionValue n).rename r = positionValue n := fun n => by cases n <;> rfl
  simp only [toValue, Value.rename_tuple, List.map_cons, List.map_nil, Value.rename_ofText, hposition]

/-- The triple that a handler sees holds no identities. -/
theorem Error.rename_toTriple (labels : Labels) (fallback : StackTrace) (e : Error) :
    (e.toTriple labels fallback).rename r = e.toTriple labels fallback := by
  have hframes : ∀ stack : StackTrace,
      (stack.map StackFrame.toValue).map (Value.rename r) = stack.map StackFrame.toValue := by
    intro stack
    rw [List.map_map]
    exact List.map_congr_left fun frame _ => frame.rename_toValue r
  simp only [toTriple, Value.rename_tuple, List.map_cons, List.map_nil, Value.rename_ofText,
    Value.rename_seqOf, hframes]
  rfl

end

/-! ## Promises in texts -/

section

variable (r : Renaming)

namespace Value

mutual

theorem promises_rename : ∀ v : Value, (v.rename r).promises = v.promises.map r.promise
  | .unit => rfl
  | .bool _ => rfl
  | .byte _ => rfl
  | .int _ => rfl
  | .float _ => rfl
  | .char _ => rfl
  | .symbol _ => rfl
  | .seq s => by rw [rename_seq, promises, promises, promisesSeq_rename s]
  | .tuple items => by rw [rename_tuple, promises, promises, promisesItems_rename items]
  | .set items => by rw [rename_set, promises, promises, promisesItems_rename items]
  | .dict entries => by rw [rename_dict, promises, promises, promisesEntries_rename entries]
  | .function _ => rfl
  | .module _ => rfl
  | .promise _ => rfl
termination_by structural v => v

theorem promisesSeq_rename :
    ∀ s : Seq Value, promisesSeq (s.map (rename r)) = (promisesSeq s).map r.promise
  | ⟨front, back⟩ => by
    rw [Seq.map, promisesSeq, promisesSeq, promisesItems_rename front, promisesItems_rename back,
      List.map_append]
termination_by structural s => s

theorem promisesItems_rename : ∀ items : List Value,
    promisesItems (items.map (rename r)) = (promisesItems items).map r.promise
  | [] => rfl
  | v :: rest => by
    rw [List.map_cons, promisesItems, promisesItems, promises_rename v, promisesItems_rename rest,
      List.map_append]
termination_by structural items => items

theorem promisesEntries_rename : ∀ entries : List (Value × Value),
    promisesEntries (entries.map (Prod.map (rename r) (rename r))) =
      (promisesEntries entries).map r.promise
  | [] => rfl
  | e :: rest => by
    rw [List.map_cons, promisesEntries, promisesEntries, promisesEntry_rename e,
      promisesEntries_rename rest, List.map_append]
termination_by structural entries => entries

theorem promisesEntry_rename : ∀ e : Value × Value,
    promisesEntry (Prod.map (rename r) (rename r) e) = (promisesEntry e).map r.promise
  | (k, v) => by
    rw [Prod.map_apply, promisesEntry, promisesEntry, promises_rename k, promises_rename v,
      List.map_append]
termination_by structural e => e

end

end Value

theorem Error.operands_rename (e : Error) :
    (e.rename r).operands = e.operands.map (Value.rename r) := by
  induction e with
  | traced cause stack ih => exact ih
  | _ => rfl

theorem Error.promises_rename (e : Error) : (e.rename r).promises = e.promises.map r.promise := by
  rw [promises, promises, operands_rename, Value.promisesItems_rename]

theorem Outcome.promises_rename (o : Outcome) :
    Outcome.promises (o.rename r) = (Outcome.promises o).map r.promise := by
  cases o with
  | ok v => exact v.promises_rename r
  | error e => exact e.promises_rename r

end

/-! ## Directories -/

namespace Directory

/-- The second directory says of what is renamed what the first one does. -/
structure Renames (r : Renaming) (d d' : Directory) : Prop where
  function? : ∀ id, d'.function? (r.function id) = (d.function? id).map (Function.rename r)
  outcome? : ∀ p, d'.outcome? (r.promise p) = (d.outcome? p).map (Outcome.rename r)
  counted : d.Counted
  counted' : d'.Counted

namespace Renames

variable {r : Renaming} {d d' : Directory} (h : Renames r d d')
include h

theorem functionLabel (id : FunctionId) :
    d'.functionLabel (r.function id) = d.functionLabel id := by
  rw [Directory.functionLabel, Directory.functionLabel, h.function?]
  cases d.function? id with
  | none => rfl
  | some f => exact f.label_rename r

theorem ends (n : Nat) (p : PromiseId) : d'.ends n (r.promise p) = d.ends n p := by
  induction n generalizing p with
  | zero => rfl
  | succ n ih =>
    simp only [Directory.ends, h.outcome?]
    cases d.outcome? p with
    | none => rfl
    | some o =>
      have hinside : d'.ends n ∘ r.promise = d.ends n := funext ih
      simp only [Option.map_some, Outcome.promises_rename, List.all_map, hinside]

theorem promiseLabel (n : Nat) (p : PromiseId) :
    d'.promiseLabel n (r.promise p) = d.promiseLabel n p := by
  induction n generalizing p with
  | zero => rfl
  | succ n ih =>
    have hlabels : Labels.Renames r ⟨d.functionLabel, d.promiseLabel n⟩
        ⟨d'.functionLabel, d'.promiseLabel n⟩ := ⟨h.functionLabel, ih⟩
    simp only [Directory.promiseLabel, h.outcome?]
    cases d.outcome? p with
    | none => rfl
    | some o =>
      cases o with
      | ok v => simp only [Option.map_some, renameResult, Value.quoted, Value.render_rename hlabels]
      | error e => simp only [Option.map_some, renameResult, Error.message_rename hlabels]

/-- Both bounds are large enough, and so is any that is larger than both. -/
theorem ends_bound (p : PromiseId) :
    d'.ends (d'.promises + 1) (r.promise p) = d.ends (d.promises + 1) p := by
  have hd := ends_eq h.counted (Nat.lt_succ_self _) (Nat.lt_succ_of_le (Nat.le_max_left _ d'.promises)) p
  have hd' := ends_eq h.counted' (Nat.lt_succ_self _) (Nat.lt_succ_of_le (Nat.le_max_right d.promises _))
    (r.promise p)
  rw [hd', hd, h.ends]

/-- What is renamed is written in the same way. -/
theorem labels : d.labels.Renames r d'.labels := by
  refine ⟨h.functionLabel, fun p => ?_⟩
  change (if d'.ends (d'.promises + 1) (r.promise p) then d'.promiseLabel (d'.promises + 1) (r.promise p)
      else "<promise>") =
    if d.ends (d.promises + 1) p then d.promiseLabel (d.promises + 1) p else "<promise>"
  have hends := h.ends_bound p
  cases hp : d.ends (d.promises + 1) p with
  | false => rw [hends, hp, if_neg Bool.false_ne_true, if_neg Bool.false_ne_true]
  | true =>
    rw [hp] at hends
    rw [hends, if_pos rfl, if_pos rfl,
      ← promiseLabel_of_ends hp (Nat.succ_le_succ (Nat.le_max_left _ d'.promises)),
      ← promiseLabel_of_ends hends (Nat.succ_le_succ (Nat.le_max_right d.promises _)), h.promiseLabel]

theorem legible (inside : List PromiseId) :
    d'.legible (inside.map r.promise) = d.legible inside := by
  have hends : d'.ends (d'.promises + 1) ∘ r.promise = d.ends (d.promises + 1) := funext h.ends_bound
  rw [Directory.legible, Directory.legible, List.all_map, hends]

theorem quoted? (v : Value) : d'.quoted? (v.rename r) = d.quoted? v := by
  rw [Directory.quoted?, Directory.quoted?, Value.promises_rename, h.legible, Value.quoted,
    Value.render_rename h.labels, Value.quoted]

theorem triple? (fallback : StackTrace) (e : Error) :
    d'.triple? fallback (e.rename r) = d.triple? fallback e := by
  rw [Directory.triple?, Directory.triple?, Error.promises_rename, h.legible,
    Error.toTriple_rename h.labels]

end Renames

end Directory

/-- The triple that a handler sees is the same after any renaming, as it holds no identities. -/
theorem Directory.rename_of_triple? {d : Directory} {fallback : StackTrace} {e : Error} {v : Value}
    (h : d.triple? fallback e = some v) (r : Renaming) : v.rename r = v := by
  unfold triple? at h
  split at h
  · obtain rfl := Option.some.inj h
    exact Error.rename_toTriple r _ _ _
  · cases h

end Deferral

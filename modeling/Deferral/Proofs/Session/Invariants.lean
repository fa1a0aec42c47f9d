import Deferral.Proofs.Eval.Definitions
import Deferral.Proofs.Session.Reach

/-!
# Invariants of sessions

An invariant of what is defined holds in every session that a host can reach, if it holds of a machine
on which nothing is defined (`Definitional.reachable`): hosts run computations, add functions and change
environments, and nothing of that defines a module in any other way.
-/

set_option autoImplicit false

namespace Deferral

namespace Definitional

variable {I : Machine → Prop} (hI : Definitional I) {α : Type} {s : Session}
include hI

/-! ## What commands run -/

theorem drain {E : Engine} (h : Keeping I E) (fromBack : Bool) (limit count : Nat) :
    Keeps I (Session.drain E fromBack limit count) := by
  induction limit generalizing count with
  | zero => exact .pure count
  | succ limit ih =>
    refine .bind (.gets _) fun taken => ?_
    cases taken with
    | none => exact .pure count
    | some taken =>
      exact .bind (hI.still fun _ => ⟨rfl, rfl⟩) fun _ => .bind (h.runTask _) fun _ => ih _

omit hI in
theorem evalBoth {E : Engine} (h : Keeping I E) (a b : Expr) : Keeps I (Session.evalBoth E a b) :=
  .bind (.outcome (h.eval a)) fun _ => .bind (.outcome (h.eval b)) fun _ => .bind (.ofExcept _) fun _ =>
    .bind (.ofExcept _) fun _ => .pure _

omit hI in
theorem matchNow {E : Engine} (h : Keeping I E) (value : Value) (pattern : Pattern)
    (keys : Option (List Value)) : Keeps I (Session.matchNow E value pattern keys) := by
  have hmatch : ∀ keys, Keeps I (do
      let verdict ← EvalM.gets fun m => pattern.matching m.sight value keys
      let verdict ← EvalM.ofExcept verdict
      return (keys, verdict)) :=
    fun keys => .bind (.gets _) fun _ => .bind (.ofExcept _) fun _ => .pure _
  cases keys with
  | none => exact .bind (h.evalItems _) hmatch
  | some keys => exact .bind (.pure keys) hmatch

omit hI in
theorem deriveWith {E : Engine} (h : Keeping I E) (source : PromiseId) (function : Expr)
    (handler : Value → Environment → Handler) :
    Keeps I (Session.deriveWith E source function handler) :=
  .bind (h.eval function) fun _ => .bind .environment fun _ => h.composed.derive h.deliver _ _

/-! ## Commands -/

omit hI in
theorem andThen {x : EvalM α} {go : Session → α → Session × Response} (hs : I s.machine)
    (hx : Keeps I x) (hgo : ∀ s a, I s.machine → I (go s a).1.machine) :
    I (s.andThen x go).1.machine := by
  have hend := hx _ hs
  unfold Session.andThen Session.perform
  cases hr : x s.machine with
  | ok a m =>
    rw [hr] at hend
    exact hgo _ _ hend
  | error e m =>
    rw [hr] at hend
    exact hend

omit hI in
theorem withPromise {name : String} {go : PromiseId → Session × Response} (hs : I s.machine)
    (hgo : ∀ p, I (go p).1.machine) : I (s.withPromise name go).1.machine := by
  unfold Session.withPromise
  split
  · exact hgo _
  · exact hs

omit hI in
theorem save (save : Option String) (v : Value) (hs : I s.machine) : I (s.save save v).machine := by
  cases save <;> exact hs

theorem withEnvironment (env : Environment) (hs : I s.machine) : I (s.withEnvironment env).machine :=
  hI.congr (m := s.machine) rfl rfl hs

theorem publish (name : String) (p : PromiseId) (hidden : Bool) (hs : I s.machine) :
    I (s.publish name p hidden).machine := by
  cases hidden with
  | true => exact hs
  | false => exact hI.congr (m := s.machine) rfl rfl hs

omit hI in
theorem concludeForced (save : Option String) (v : Value) (hs : I s.machine) :
    I (Session.concludeForced save s v).1.machine := by
  unfold Session.concludeForced
  split
  · split
    · exact Definitional.save save _ hs
    · exact hs
    · exact Definitional.save save _ hs
  · exact Definitional.save save _ hs

theorem concludeMatch (define : Bool) (r : List Value × Matching) (hs : I s.machine) :
    I (Session.concludeMatch define s r).1.machine := by
  unfold Session.concludeMatch
  split
  · exact hs
  · exact hs
  · cases define with
    | true => exact hI.withEnvironment _ hs
    | false => exact hs

/-- Every command keeps an invariant of what is defined. -/
theorem run (hs : I s.machine) (c : Command) : I (s.run c).1.machine := by
  have h : Keeping I s.engine := hI.engine s.context s.fuel
  cases c with
  | eval e save => exact andThen hs (h.eval e) fun _ v => Definitional.save save v
  | force e save => exact andThen hs (h.eval e) fun _ v => concludeForced save v
  | call function args save =>
    exact andThen hs (.bind (h.eval function) fun f => h.whenReady f _)
      fun _ v => Definitional.save save v
  | runTasks count fromBack => exact andThen hs (hI.drain h fromBack count 0) fun _ _ hs => hs
  | inspect e places => exact andThen hs (h.eval e) fun _ _ hs => hs
  | compare a b => exact andThen hs (evalBoth h a b) fun _ _ hs => hs
  | tryMatch value pattern keys define =>
    exact andThen hs (matchNow h value pattern keys) fun _ r => hI.concludeMatch define r
  | promise name outcome hidden =>
    cases outcome with
    | some o => exact andThen hs (hI.composed.settled h.deliver o) fun _ p => hI.publish name p hidden
    | none => exact andThen hs hI.composed.new fun _ p => hI.publish name p hidden
  | fulfil name o =>
    exact withPromise hs fun p => andThen hs (hI.composed.fulfil h.deliver p o) fun _ _ hs => hs
  | peek name => exact withPromise hs fun _ => hs
  | map name source function hidden =>
    exact withPromise hs fun p => andThen hs (deriveWith h p function .apply)
      fun _ q => hI.publish name q hidden
  | mapEither name source function hidden =>
    exact withPromise hs fun p => andThen hs (deriveWith h p function .applyEither)
      fun _ q => hI.publish name q hidden
  | all name operands hidden =>
    exact andThen hs (hI.composed.all h.deliver operands) fun _ p => hI.publish name p hidden
  | observe name label =>
    exact withPromise hs fun p => andThen hs (hI.composed.onComplete h.deliver p _) fun _ _ hs => hs
  | same a b => exact withPromise hs fun _ => withPromise hs fun _ => hs
  | interrupt => exact hI.congr (m := s.machine) rfl rfl hs
  | reset => exact hI.congr (m := s.machine) rfl rfl hs
  | define name value => exact hI.withEnvironment _ hs
  | defineAs name e => exact andThen hs (h.eval e) fun _ _ hs => hI.withEnvironment _ hs
  | openFrame => exact hI.withEnvironment _ hs
  | closeFrame => exact hI.withEnvironment _ hs
  | enterCall frame max =>
    simp only [Session.run, Session.runWith]
    split
    · exact hI.withEnvironment _ hs
    · exact hs
  | setModule name => exact hI.withEnvironment _ hs
  | register name exports functions =>
    exact andThen hs (hI.built name exports functions) fun _ _ hs => hs
  | showModule name names =>
    simp only [Session.run, Session.runWith]
    split <;> exact hs
  | showEnvironment => exact hs
  | showForCall => exact hs
  | lookup name => exact hs

/-! ## Sessions -/

theorem defineNative {m : Machine} (hm : I m) (name : String) (operation : Native) (arity : Nat) :
    I (Session.defineNative m name operation arity) :=
  hI.congr (m := m.withFunction (.ofNative name operation arity)) rfl rfl (hI.function _ hm)

theorem start (hempty : I .empty) (executor : Executor) (maxCallDepth : Nat)
    (withPrelude withHost : Bool) :
    I (Session.start executor maxCallDepth withPrelude withHost).machine := by
  have hprelude : ∀ {m : Machine}, I m → I (Session.loadPrelude m) := fun hm =>
    List.foldlRecOn _ _ hm fun _ h _ _ => hI.defineNative h ..
  have hhost : ∀ {m : Machine}, I m → I (Session.loadHost m) := fun hm =>
    List.foldlRecOn _ _ hm fun _ h _ _ => hI.defineNative h ..
  cases withPrelude <;> cases withHost
  · exact hempty
  · exact hhost hempty
  · exact hprelude hempty
  · exact hhost (hprelude hempty)

/-- An invariant of what is defined holds in every session that a host can reach. -/
theorem reachable (hempty : I .empty) (h : s.Reachable) : I s.machine := by
  induction h with
  | start executor maxCallDepth withPrelude withHost => exact hI.start hempty ..
  | settings _ _ _ ih => exact ih
  | native _ name operation arity ih => exact hI.defineNative ih name operation arity
  | run _ c ih => exact hI.run ih c
  | @takeLog s _ ih => exact hI.congr (m := s.machine) rfl rfl ih
  | @holding s _ held ih => exact hI.congr (m := s.machine) rfl rfl ih

end Definitional

end Deferral

import Deferral.Proofs.Eval.Conduct
import Deferral.Session.Command

/-!
# The sessions a host can reach

`Session.Reachable` collects the sessions that come about when a host starts one, adds native operations
of its own, changes the settings, lets go of modules and carries out commands. Whatever a command asks
for, the machine is changed by evaluation or by an operation on promises, both of which behave
(`Conduct`), or its store is left alone. So no promise of a reachable session holds a promise
(`Reachable.flat`).
-/

set_option autoImplicit false

namespace Deferral

theorem Conduct.flat {context : Context} {ρ : Environment → Environment → Prop} {α : Type} {x : EvalM α}
    (h : Conduct context ρ x) {m : Machine} (hm : m.store.Flat) : (finalWorld (x m)).store.Flat :=
  (h m).evolves.flat hm

namespace Session

/-- The sessions that a host can come to have in its hands. -/
inductive Reachable : Session → Prop
  | start (executor : Executor) (maxCallDepth : Nat) (withPrelude withHost : Bool) :
      Reachable (start executor maxCallDepth withPrelude withHost)
  | settings {s : Session} (h : Reachable s) (context : Context) (fuel : Nat) :
      Reachable { s with context, fuel }
  | native {s : Session} (h : Reachable s) (name : String) (operation : Native) (arity : Nat) :
      Reachable { s with machine := defineNative s.machine name operation arity }
  | run {s : Session} (h : Reachable s) (c : Command) : Reachable (s.run c).1
  | takeLog {s : Session} (h : Reachable s) : Reachable s.takeLog.2
  | holding {s : Session} (h : Reachable s) (held : Module → Bool) : Reachable (s.holding held)

/-! ## What commands run -/

variable {context : Context} {α : Type} {s : Session}

theorem conduct_drain {E : Engine} (h : Conducted E) (fromBack : Bool) (limit count : Nat) :
    Conduct E.context (· = ·) (drain E fromBack limit count) := by
  induction limit generalizing count with
  | zero => exact .pure count
  | succ limit ih =>
    refine .bind (.gets _) fun taken => ?_
    cases taken with
    | none => exact .pure count
    | some taken =>
      exact .bind (fun m => .ok (.single (.queue m _)) rfl) fun _ => .bind (h.runTask _) fun _ => ih _

theorem conduct_evalBoth {E : Engine} (h : Conducted E) (a b : Expr) :
    Conduct E.context (· = ·) (evalBoth E a b) :=
  .bind (.outcome (h.eval a)) fun _ => .bind (.outcome (h.eval b)) fun _ => .bind (.ofExcept _) fun _ =>
    .bind (.ofExcept _) fun _ => .pure _

theorem conduct_matchNow {E : Engine} (h : Conducted E) (value : Value) (pattern : Pattern)
    (keys : Option (List Value)) : Conduct E.context (· = ·) (matchNow E value pattern keys) := by
  have hmatch : ∀ keys, Conduct E.context (· = ·) (do
      let verdict ← EvalM.gets fun m => pattern.matching m.sight value keys
      let verdict ← EvalM.ofExcept verdict
      return (keys, verdict)) :=
    fun keys => .bind (.gets _) fun _ => .bind (.ofExcept _) fun _ => .pure _
  cases keys with
  | none => exact .bind (h.evalItems _) hmatch
  | some keys => exact .bind (.pure keys) hmatch

theorem conduct_deriveWith {E : Engine} (h : Conducted E) (source : PromiseId) (function : Expr)
    (handler : Value → Environment → Handler) :
    Conduct E.context (· = ·) (deriveWith E source function handler) :=
  .bind (h.eval function) fun _ => .bind .environment fun _ =>
    Conduct.composed.derive h.deliver _ _

theorem conduct_evalModuleBuild (context : Context) (name : ModuleName) (exports : List String)
    (ds : List FunctionDecl) : Conduct context (· = ·) (evalModuleBuild name exports ds) :=
  .bind (.gets _) fun _ => .bind (.ofExcept _) fun _ => .bind .environment fun _ =>
    .bind (.addFunctions _ _ ds) fun _ => .bind (.registerModule _) fun _ => .pure _

/-! ## Flat stores -/

/-- What is run behaves, and what is shown changes nothing. -/
theorem flat_andThen {x : EvalM α} {go : Session → α → Session × Response} (hs : s.machine.store.Flat)
    (hx : Conduct context (· = ·) x)
    (hgo : ∀ s a, (go s a).1.machine.store = s.machine.store) :
    (s.andThen x go).1.machine.store.Flat := by
  have hflat := hx.flat hs
  unfold andThen perform
  cases hr : x s.machine with
  | ok a m =>
    rw [hr] at hflat
    dsimp only
    rw [hgo]
    exact hflat
  | error e m =>
    rw [hr] at hflat
    exact hflat

theorem flat_withPromise {name : String} {go : PromiseId → Session × Response}
    (hs : s.machine.store.Flat) (hgo : ∀ p, (go p).1.machine.store.Flat) :
    (s.withPromise name go).1.machine.store.Flat := by
  unfold withPromise
  split
  · exact hgo _
  · exact hs

theorem store_save (save : Option String) (s : Session) (v : Value) :
    (s.save save v).machine.store = s.machine.store := by
  cases save <;> rfl

theorem store_publish (s : Session) (name : String) (p : PromiseId) (hidden : Bool) :
    (s.publish name p hidden).machine.store = s.machine.store := by
  cases hidden <;> rfl

theorem store_concludeForced (save : Option String) (s : Session) (v : Value) :
    (concludeForced save s v).1.machine.store = s.machine.store := by
  unfold concludeForced
  split
  · split
    · exact store_save save s _
    · rfl
    · exact store_save save s _
  · exact store_save save s _

theorem store_concludeMatch (define : Bool) (s : Session) (r : List Value × Matching) :
    (concludeMatch define s r).1.machine.store = s.machine.store := by
  unfold concludeMatch
  split
  · rfl
  · rfl
  · cases define <;> rfl

/-- No command makes a promise hold a promise. -/
theorem flat_run (hs : s.machine.store.Flat) (c : Command) : (s.run c).1.machine.store.Flat := by
  have h : Conducted s.engine := conducted_engine s.context s.fuel
  cases c with
  | eval e save => exact flat_andThen hs (h.eval e) fun s v => store_save save s v
  | force e save => exact flat_andThen hs (h.eval e) fun s v => store_concludeForced save s v
  | call function args save =>
    exact flat_andThen hs (.bind (h.eval function) fun f => h.whenReady f (.call args none))
      fun s v => store_save save s v
  | runTasks count fromBack => exact flat_andThen hs (conduct_drain h fromBack count 0) fun _ _ => rfl
  | inspect e places => exact flat_andThen hs (h.eval e) fun _ _ => rfl
  | compare a b => exact flat_andThen hs (conduct_evalBoth h a b) fun _ _ => rfl
  | tryMatch value pattern keys define =>
    exact flat_andThen hs (conduct_matchNow h value pattern keys) fun s r =>
      store_concludeMatch define s r
  | promise name outcome hidden =>
    cases outcome with
    | some o =>
      exact flat_andThen hs (Conduct.composed.settled h.deliver o)
        fun s p => store_publish s name p hidden
    | none =>
      have hnew : Conduct s.context (· = ·) Promise.new := Conduct.composed.new
      exact flat_andThen hs hnew fun s p => store_publish s name p hidden
  | fulfil name o =>
    exact flat_withPromise hs fun p =>
      flat_andThen hs (Conduct.composed.fulfil h.deliver p o) fun _ _ => rfl
  | peek name => exact flat_withPromise hs fun _ => hs
  | map name source function hidden =>
    exact flat_withPromise hs fun p => flat_andThen hs (conduct_deriveWith h p function .apply)
      fun s q => store_publish s name q hidden
  | mapEither name source function hidden =>
    exact flat_withPromise hs fun p => flat_andThen hs (conduct_deriveWith h p function .applyEither)
      fun s q => store_publish s name q hidden
  | all name operands hidden =>
    exact flat_andThen hs (Conduct.composed.all h.deliver operands)
      fun s p => store_publish s name p hidden
  | observe name label =>
    exact flat_withPromise hs fun p =>
      flat_andThen hs (Conduct.composed.onComplete h.deliver p _) fun _ _ => rfl
  | same a b => exact flat_withPromise hs fun _ => flat_withPromise hs fun _ => hs
  | defineAs name e => exact flat_andThen hs (h.eval e) fun _ _ => rfl
  | enterCall frame max =>
    simp only [run, runWith]
    split <;> exact hs
  | register name exports functions =>
    exact flat_andThen hs (conduct_evalModuleBuild s.context name exports functions) fun _ _ => rfl
  | showModule name names =>
    simp only [run, runWith]
    split <;> exact hs
  | _ => exact hs

theorem store_start (executor : Executor) (maxCallDepth : Nat) (withPrelude withHost : Bool) :
    (Session.start executor maxCallDepth withPrelude withHost).machine.store = .empty := by
  cases withPrelude <;> cases withHost <;> rfl

/-- No promise of a session holds a promise. -/
theorem Reachable.flat (h : s.Reachable) : s.machine.store.Flat := by
  induction h with
  | start executor maxCallDepth withPrelude withHost =>
    rw [store_start]
    exact Store.flat_empty
  | settings _ _ _ ih => exact ih
  | native _ _ _ _ ih => exact ih
  | run _ c ih => exact flat_run ih c
  | takeLog _ ih => exact ih
  | holding _ _ ih => exact ih

end Session

end Deferral

import Deferral.Proofs.Eval.Run
import Deferral.Session.Basic

/-!
# Environments are stacks of frames

An environment keeps the bindings of all its frames in one list and of a frame only the number of
bindings below it. Here it is set beside what it stands for, a stack of frames of which each is a list of
bindings (`FrameStack`). The relation of the two (`FrameStack.Represents`) says that the bindings are
the frames one after the other, and that the numbers are the heights at which the frames stand. Each
operation keeps it (`Represents.run`), so any sequence of operations does, and every observer is read off
it: looking a name up in the one list is looking it up frame by frame, innermost first.

Functions of the host are bound by identities that the machine hands out in order, so the operations act
on machines, and a stack knows how many functions there are.
-/

set_option autoImplicit false

namespace Deferral

/-- A stack of frames, the global one at its bottom. -/
structure FrameStack where
  /-- The innermost frame, newest binding first. -/
  top : List Binding
  /-- The frames around it, innermost first. -/
  outer : List (List Binding)
  /-- How many functions there are. -/
  functions : Nat

namespace FrameStack

/-- All frames, innermost first. -/
def frames (fs : FrameStack) : List (List Binding) := fs.top :: fs.outer

/-! ## What is done to a stack -/

def openFrame (fs : FrameStack) : FrameStack := { fs with top := [], outer := fs.top :: fs.outer }

/-- Drops the innermost frame, unless it is the only one. -/
def closeFrame (fs : FrameStack) : FrameStack :=
  match fs.outer with
  | [] => fs
  | frame :: rest => { fs with top := frame, outer := rest }

def define (name : String) (value : Value) (fs : FrameStack) : FrameStack :=
  { fs with top := ⟨name, value, false⟩ :: fs.top }

/-- Binds the function that is made next. -/
def defineBuiltin (fs : FrameStack) (name : String) : FrameStack :=
  { fs with
    top := ⟨name, .function ⟨fs.functions⟩, true⟩ :: fs.top
    functions := fs.functions + 1 }

def loadPrelude (fs : FrameStack) : FrameStack :=
  prelude.foldl (fun fs n => fs.defineBuiltin n.1) fs

/-! ## What is seen of a stack -/

/-- The newest binding of a name in the innermost frame that has one. -/
def binding? (fs : FrameStack) (name : String) : Option Binding :=
  fs.frames.findSome? fun frame => frame.find? (·.name == name)

def get? (fs : FrameStack) (name : String) : Option Value := (fs.binding? name).map (·.value)

/-- What the newest binding of a name stands for, unless it is a builtin. -/
def getUser? (fs : FrameStack) (name : String) : Option Value :=
  ((fs.binding? name).filter fun b => !b.builtin).map (·.value)

def contains (fs : FrameStack) (name : String) : Bool :=
  fs.frames.any fun frame => frame.any (·.name == name)

/-- The names bound in the innermost frame, oldest first. -/
def currentNames (fs : FrameStack) : List String := fs.top.reverse.map (·.name)

def depth (fs : FrameStack) : Nat := fs.frames.length

/-- All bindings, oldest first. -/
def toList (fs : FrameStack) : List Binding := (fs.frames.reverse.map List.reverse).flatten

def size (fs : FrameStack) : Nat := fs.toList.length

/-- All bindings, newest first, as a function keeps them. -/
def capture (fs : FrameStack) : List Binding := fs.frames.flatten

/-! ## Heights -/

/-- The number of bindings in each of the frames and below it. -/
def heights : List (List Binding) → List Nat
  | [] => []
  | frame :: rest => (frame :: rest).flatten.length :: heights rest

theorem head?_heights (frames : List (List Binding)) :
    (heights frames).head?.getD 0 = frames.flatten.length := by
  cases frames <;> rfl

theorem length_heights (frames : List (List Binding)) : (heights frames).length = frames.length := by
  induction frames with
  | nil => rfl
  | cons frame rest ih => rw [heights, List.length_cons, List.length_cons, ih]

theorem le_of_mem_heights {frames : List (List Binding)} {n : Nat} (h : n ∈ heights frames) :
    n ≤ frames.flatten.length := by
  induction frames with
  | nil => cases h
  | cons frame rest ih =>
    rcases List.mem_cons.1 h with rfl | h
    · exact Nat.le_refl _
    · rw [List.flatten_cons, List.length_append]
      exact Nat.le_add_left_of_le (ih h)

theorem pairwise_heights (frames : List (List Binding)) : (heights frames).Pairwise (· ≥ ·) := by
  induction frames with
  | nil => exact .nil
  | cons frame rest ih =>
    refine .cons (fun n hn => ?_) ih
    rw [List.flatten_cons, List.length_append]
    exact Nat.le_add_left_of_le (le_of_mem_heights hn)

end FrameStack

/-- Where the frames start among the bindings, outermost first. -/
def Environment.boundaries (env : Environment) : List Nat := 0 :: env.frames.reverse

/-! ## Operations -/

/-- The machine with a function of the host bound under its own name. -/
def Machine.defineBuiltin (m : Machine) (f : Function) : Machine :=
  (m.withFunction f).withEnv (m.rest.env.defineBuiltin f.name (.function ⟨m.rest.functions.size⟩))

theorem Session.defineNative_eq (m : Machine) (name : String) (operation : Native) (arity : Nat) :
    defineNative m name operation arity = m.defineBuiltin (.ofNative name operation arity) := rfl

/-- Where an environment comes from. -/
inductive Environment.Origin where
  | empty
  | prelude
  /-- The body of a function with the given captures, called from the present environment. -/
  | call (captures : List Binding)

/-- What is done to an environment. -/
inductive Environment.Operation where
  | openFrame
  | closeFrame
  | define (name : String) (value : Value)
  | defineBuiltin (f : Function)
  | loadPrelude
  /-- Nothing is recorded when there would be too many calls. -/
  | enterCall (frame : StackFrame) (max : Nat)

namespace Environment

/-- The machine in a new environment. -/
def Origin.enter (m : Machine) : Origin → Machine
  | empty => m.withEnv .empty
  | prelude => Session.loadPrelude (m.withEnv .empty)
  | call captures => m.withEnv (.forCall captures m.rest.env)

def Origin.stack (functions : Nat) : Origin → FrameStack
  | empty => ⟨[], [], functions⟩
  | prelude => FrameStack.loadPrelude ⟨[], [], functions⟩
  | call captures => ⟨captures, [], functions⟩

/-- Carries out an operation on the environment of a machine. -/
def Operation.run (m : Machine) : Operation → Machine
  | openFrame => m.withEnv m.rest.env.openFrame
  | closeFrame => m.withEnv m.rest.env.closeFrame
  | define name value => m.withEnv (m.rest.env.define name value)
  | defineBuiltin f => m.defineBuiltin f
  | loadPrelude => Session.loadPrelude m
  | enterCall frame max =>
    match m.rest.env.enterCall frame max with
    | .ok env => m.withEnv env
    | .error _ => m

/-- Carries out an operation on a stack. Calls are not kept there. -/
def Operation.act (fs : FrameStack) : Operation → FrameStack
  | openFrame => fs.openFrame
  | closeFrame => fs.closeFrame
  | define name value => fs.define name value
  | defineBuiltin f => fs.defineBuiltin f.name
  | loadPrelude => fs.loadPrelude
  | enterCall .. => fs

end Environment

/-! ## The relation -/

namespace FrameStack

open Environment (Origin Operation)

/-- The environment of the machine stands for the stack. -/
structure Represents (m : Machine) (fs : FrameStack) : Prop where
  bindings : m.rest.env.bindings = fs.frames.flatten
  heights : m.rest.env.frames = heights fs.outer
  functions : m.rest.functions.size = fs.functions

namespace Represents

variable {m : Machine} {fs : FrameStack}

theorem openFrame (h : Represents m fs) : Represents (m.withEnv m.rest.env.openFrame) fs.openFrame where
  bindings := h.bindings
  heights := by
    change m.rest.env.bindings.length :: m.rest.env.frames = _
    rw [h.bindings, h.heights]
    rfl
  functions := h.functions

theorem closeFrame (h : Represents m fs) :
    Represents (m.withEnv m.rest.env.closeFrame) fs.closeFrame := by
  obtain ⟨top, outer, functions⟩ := fs
  have hheights := h.heights
  cases outer with
  | nil =>
    have hclose : m.rest.env.closeFrame = m.rest.env := by
      rw [Environment.closeFrame, hheights]
      rfl
    rw [hclose]
    exact h
  | cons frame rest =>
    have hbindings : m.rest.env.bindings = top ++ (frame :: rest).flatten := h.bindings
    have hclose : m.rest.env.closeFrame =
        { m.rest.env with bindings := (frame :: rest).flatten, frames := FrameStack.heights rest } := by
      rw [Environment.closeFrame, hheights]
      simp only [FrameStack.heights, hbindings, List.length_append, Nat.add_sub_cancel, List.drop_left]
    rw [hclose]
    exact ⟨rfl, rfl, h.functions⟩

theorem define (h : Represents m fs) (name : String) (value : Value) :
    Represents (m.withEnv (m.rest.env.define name value)) (fs.define name value) where
  bindings := congrArg (List.cons _) h.bindings
  heights := h.heights
  functions := h.functions

theorem defineBuiltin (h : Represents m fs) (f : Function) :
    Represents (m.defineBuiltin f) (fs.defineBuiltin f.name) where
  bindings := by
    rw [FrameStack.defineBuiltin, ← h.functions]
    exact congrArg (List.cons _) h.bindings
  heights := h.heights
  functions := (Array.size_push f).trans (congrArg (· + 1) h.functions)

theorem loadPrelude (h : Represents m fs) : Represents (Session.loadPrelude m) fs.loadPrelude := by
  rw [Session.loadPrelude, FrameStack.loadPrelude]
  induction prelude generalizing m fs with
  | nil => exact h
  | cons n rest ih =>
    rw [List.foldl_cons, List.foldl_cons, Session.defineNative_eq]
    exact ih (h.defineBuiltin _)

/-- Calls are kept apart from the bindings. -/
theorem enterCall (h : Represents m fs) (frame : StackFrame) (max : Nat) :
    Represents ((Operation.enterCall frame max).run m) fs := by
  rw [Operation.run, Environment.enterCall]
  split
  · rename_i env henter
    split at henter
    · cases henter
    · cases henter
      exact ⟨h.bindings, h.heights, h.functions⟩
  · exact h

/-- Every operation keeps the relation. -/
theorem run (h : Represents m fs) : ∀ op : Operation, Represents (op.run m) (op.act fs)
  | .openFrame => h.openFrame
  | .closeFrame => h.closeFrame
  | .define name value => h.define name value
  | .defineBuiltin f => h.defineBuiltin f
  | .loadPrelude => h.loadPrelude
  | .enterCall frame max => h.enterCall frame max

theorem runAll (h : Represents m fs) (ops : List Operation) :
    Represents (ops.foldl Operation.run m) (ops.foldl Operation.act fs) := by
  induction ops generalizing m fs with
  | nil => exact h
  | cons op rest ih => exact ih (h.run op)

end Represents

theorem represents_enter (m : Machine) (origin : Origin) :
    Represents (origin.enter m) (origin.stack m.rest.functions.size) := by
  cases origin with
  | empty => exact ⟨rfl, rfl, rfl⟩
  | prelude => exact Represents.loadPrelude ⟨rfl, rfl, rfl⟩
  | call captures => exact ⟨(List.append_nil captures).symm, rfl, rfl⟩

/-! ## What is seen -/

namespace Represents

variable {m : Machine} {fs : FrameStack} (h : Represents m fs)
include h

theorem binding?_eq (name : String) : m.rest.env.binding? name = fs.binding? name := by
  rw [Environment.binding?, h.bindings, List.find?_flatten, binding?]

theorem getUser?_eq (name : String) : m.rest.env.getUser? name = fs.getUser? name := by
  rw [Environment.getUser?, h.binding?_eq, getUser?]
  cases fs.binding? name with
  | none => rfl
  | some b => cases hb : b.builtin <;> simp [Option.filter_some, hb]

theorem contains_eq (name : String) : m.rest.env.contains name = fs.contains name := by
  rw [Environment.contains, Environment.binding?, h.bindings, List.isSome_find?, List.any_flatten,
    contains]

theorem depth_eq : m.rest.env.depth = fs.depth := by
  rw [Environment.depth, h.heights, length_heights]
  rfl

theorem toList_eq : m.rest.env.toList = fs.toList := by
  rw [Environment.toList, h.bindings, List.reverse_flatten, toList, List.map_reverse]

theorem size_eq : m.rest.env.size = fs.size := by
  rw [size, ← h.toList_eq, Environment.toList, List.length_reverse, Environment.size]

/-- The innermost frame starts above all the others. -/
theorem head?_frames : m.rest.env.frames.head?.getD 0 = fs.outer.flatten.length := by
  rw [h.heights, head?_heights]

theorem currentNames_eq : m.rest.env.currentNames = fs.currentNames := by
  have hlist : m.rest.env.toList = fs.outer.flatten.reverse ++ fs.top.reverse := by
    rw [Environment.toList, h.bindings, frames, List.flatten_cons, List.reverse_append]
  rw [Environment.currentNames, hlist, h.head?_frames, ← List.length_reverse, List.drop_left]
  rfl

theorem capture_eq (name : String) (params : List String) (body : Expr) :
    closure name params body m = .ok (.function ⟨m.rest.functions.size⟩)
      (m.withFunction ⟨name, .code params body, fs.capture, none⟩) := by
  rw [capture, ← h.bindings]
  rfl

theorem le_size_of_mem_boundaries {n : Nat} (hn : n ∈ m.rest.env.boundaries) :
    n ≤ m.rest.env.size := by
  rcases List.mem_cons.1 hn with rfl | hn
  · exact Nat.zero_le _
  · rw [List.mem_reverse, h.heights] at hn
    rw [Environment.size, h.bindings, frames, List.flatten_cons, List.length_append]
    exact Nat.le_add_left_of_le (le_of_mem_heights hn)

theorem pairwise_boundaries : m.rest.env.boundaries.Pairwise (· ≤ ·) := by
  refine .cons (fun n _ => Nat.zero_le n) (List.pairwise_reverse.2 ?_)
  rw [h.heights]
  exact pairwise_heights fs.outer

end Represents

/-- The environment of the machine shows what the stack shows. -/
structure Agrees (m : Machine) (fs : FrameStack) : Prop where
  get : ∀ name, m.rest.env.get? name = fs.get? name
  getUser : ∀ name, m.rest.env.getUser? name = fs.getUser? name
  contains : ∀ name, m.rest.env.contains name = fs.contains name
  currentNames : m.rest.env.currentNames = fs.currentNames
  depth : m.rest.env.depth = fs.depth
  size : m.rest.env.size = fs.size
  toList : m.rest.env.toList = fs.toList
  /-- A function created here takes all bindings of the stack with it. -/
  capture : ∀ name params body,
    closure name params body m = .ok (.function ⟨m.rest.functions.size⟩)
      (m.withFunction ⟨name, .code params body, fs.capture, none⟩)

theorem Represents.agrees {m : Machine} {fs : FrameStack} (h : Represents m fs) : Agrees m fs where
  get := fun name => congrArg (Option.map Binding.value) (h.binding?_eq name)
  getUser := h.getUser?_eq
  contains := h.contains_eq
  currentNames := h.currentNames_eq
  depth := h.depth_eq
  size := h.size_eq
  toList := h.toList_eq
  capture := h.capture_eq

end FrameStack

/-! ## Boundaries -/

namespace Environment

/-- The boundaries of the frames rise from zero and stay within the bindings. The last one is where the
innermost frame starts. -/
structure Bounded (env : Environment) : Prop where
  first : env.boundaries.head? = some 0
  rising : env.boundaries.Pairwise (· ≤ ·)
  within : ∀ n ∈ env.boundaries, n ≤ env.size
  length : env.boundaries.length = env.depth
  innermost : ∃ start ≤ env.size, env.boundaries.getLast? = some start ∧
    env.currentNames = (env.toList.drop start).map (·.name)

theorem getLast?_boundaries (env : Environment) :
    env.boundaries.getLast? = some (env.frames.head?.getD 0) := by
  rw [boundaries, List.getLast?_cons, List.getLast?_reverse]

theorem bounded_of_represents {m : Machine} {fs : FrameStack} (h : fs.Represents m) :
    m.rest.env.Bounded where
  first := rfl
  rising := h.pairwise_boundaries
  within := fun _ => h.le_size_of_mem_boundaries
  length := by rw [boundaries, List.length_cons, List.length_reverse, depth]
  innermost :=
    ⟨_, h.le_size_of_mem_boundaries (List.mem_of_getLast? (getLast?_boundaries _)),
      getLast?_boundaries _, rfl⟩

/-- An environment that comes from anywhere and has been worked on in any way shows what the stack of
frames shows that comes from there and has been worked on in the same way. -/
theorem refines_frameStack (m : Machine) (origin : Origin) (ops : List Operation) :
    (ops.foldl Operation.run (origin.enter m)).rest.env.Bounded ∧
      FrameStack.Agrees (ops.foldl Operation.run (origin.enter m))
        (ops.foldl Operation.act (origin.stack m.rest.functions.size)) := by
  have h := (FrameStack.represents_enter m origin).runAll ops
  exact ⟨bounded_of_represents h, h.agrees⟩

/-- A builtin in an inner frame hides what the program has bound outside, until that frame is closed. -/
example :
    let ops : List Operation := [.define "n" .unit, .openFrame, .defineBuiltin (.ofNative "n" .len 1)]
    let m := ops.foldl Operation.run (Origin.empty.enter .empty)
    m.rest.env.getUser? "n" = none ∧
      (Operation.closeFrame.run m).rest.env.getUser? "n" = some .unit := ⟨rfl, rfl⟩

end Environment

end Deferral

import KCore.Impl.MadHatter

/-!
# Executing hooks (`mad_hatter.execute_hook`)

Objects are in a heap and are passed by reference. The state of an object is all that
belongs to it, and `deepcopy` makes a new object in the same state, or raises. A hook's
function may do anything to the heap: it has the cat, and what it kept from before.
-/

namespace KCore.MadHatter

open Text

/-! ## Objects -/

abbrev Ref := Nat

/-- The states of the objects, by reference. -/
abbrev Heap (V : Type*) := List V

/-- The objects that `deepcopy` can copy. -/
class Deepcopy (V : Type*) where
  copyable : V → Bool

section

variable {V : Type*} [Deepcopy V]

/-- The copy, `none` where `deepcopy` raises. -/
def deepcopy (h : Heap V) (r : Ref) : Option (Heap V × Ref) :=
  match h[r]? with
  | some v => if Deepcopy.copyable v then some (h ++ [v], h.length) else none
  | none => none

/-- `deepcopy` of a tuple: an object that is in it twice is copied once. -/
def deepcopyTuple (h : Heap V) (memo : List (Ref × Ref)) : List Ref → Option (Heap V × List Ref)
  | [] => some (h, [])
  | r :: rs =>
    match memo.lookup r with
    | some copy =>
      match deepcopyTuple h memo rs with
      | some (h, copies) => some (h, copy :: copies)
      | none => none
    | none =>
      match deepcopy h r with
      | some (h, copy) =>
        match deepcopyTuple h ((r, copy) :: memo) rs with
        | some (h, copies) => some (h, copy :: copies)
        | none => none
      | none => none

end

/-! ## Hooks -/

/-- How a call of a hook ends; `exits` is a `BaseException` that is no `Exception`. -/
inductive Outcome
  | returned (r : Option Ref)
  | raised
  | exits

/-- The code of the plugins, on the heap and the arguments besides the cat. -/
abbrev Code (V : Type*) := Obj → Heap V → List Ref → Heap V × Outcome

inductive HookError
  | notPresent
  | uncopyable
  | noPlugin
  | exits
  deriving DecidableEq

section

variable {V : Type*} [Deepcopy V] (s : State) (pluginId : Hook → Str) (code : Code V)

/-- The calls without arguments. -/
def executeWithoutArguments : List Hook → Heap V → Heap V × Except HookError Unit
  | [], h => (h, .ok ())
  | hook :: hooks, h =>
    match code hook.function h [] with
    | (h, .returned _) => executeWithoutArguments hooks h
    | (h, .raised) => if pluginId hook ∈ s.plugins then executeWithoutArguments hooks h else (h, .error .noPlugin)
    | (h, .exits) => (h, .error .exits)

/-- The arguments of a hook: a copy of the tea cup and copies of the others, none where one raises. -/
def serve (h : Heap V) (teaCup : Ref) (others : List Ref) : Option (Heap V × List Ref) :=
  match deepcopy h teaCup with
  | none => none
  | some (h, cup) =>
    match deepcopyTuple h [] others with
    | none => none
    | some (h, copies) => some (h, cup :: copies)

/-- The loop over the hooks, with the tea cup; `pluginId` is the attribute of the hook objects. -/
def pipe (others : List Ref) : List Hook → Heap V → Ref → Heap V × Except HookError Ref
  | [], h, teaCup => (h, .ok teaCup)
  | hook :: hooks, h, teaCup =>
    match serve h teaCup others with
    | none => if pluginId hook ∈ s.plugins then pipe others hooks h teaCup else (h, .error .noPlugin)
    | some (h, given) =>
      match code hook.function h given with
      | (h, .returned (some teaSpoon)) => pipe others hooks h teaSpoon
      | (h, .returned none) => pipe others hooks h teaCup
      | (h, .raised) => if pluginId hook ∈ s.plugins then pipe others hooks h teaCup else (h, .error .noPlugin)
      | (h, .exits) => (h, .error .exits)

/-- The heap after the call, and what it returns or raises. -/
def executeHook (hookName : Str) (args : List Ref) (h : Heap V) : Heap V × Except HookError (Option Ref) :=
  match s.hooks.get? hookName with
  | none => (h, .error .notPresent)
  | some hooks =>
    match args with
    | [] =>
      let (h, done) := executeWithoutArguments s pluginId code hooks h
      (h, done.map fun _ => none)
    | arg :: others =>
      match deepcopy h arg with
      | none => (h, .error .uncopyable)
      | some (h, teaCup) =>
        let (h, done) := pipe s pluginId code others hooks h teaCup
        (h, done.map some)

end

end KCore.MadHatter

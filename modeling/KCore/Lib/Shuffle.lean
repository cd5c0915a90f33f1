import Mathlib.Data.List.Basic
import Mathlib.Data.List.Perm.Basic

/-!
# Orders the platform chooses

The order of a directory listing or of a set's elements is not the program's to
say. A `Shuffle` is one such choice; what is proved for every `Shuffle` holds
whatever the platform does.
-/

/-- Some order of every list. -/
structure Shuffle (α : Type*) where
  order : List α → List α
  perm : ∀ l, (order l).Perm l

namespace Shuffle

variable {α : Type*}

/-- The order given. -/
def id : Shuffle α := ⟨fun l => l, fun _ => .refl _⟩

@[simp] theorem mem_order {f : Shuffle α} {a : α} {l : List α} : a ∈ f.order l ↔ a ∈ l := (f.perm l).mem_iff

theorem nodup_order {f : Shuffle α} {l : List α} : (f.order l).Nodup ↔ l.Nodup := (f.perm l).nodup_iff

end Shuffle

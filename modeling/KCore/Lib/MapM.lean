import Mathlib.Data.List.Forall2

/-!
# Lists of results

`l.mapM f` in `Option` has the results of `f`, or is `none` where one of them is missing.
`eq_some_iff` says how the two lists correspond, `forall_iff` when there are results that
all meet a condition.
-/

namespace MapM

variable {α β : Type*} {f : α → Option β} {l : List α} {bs : List β}

theorem eq_some_iff : l.mapM f = some bs ↔ List.Forall₂ (fun a b => f a = some b) l bs := by
  induction l generalizing bs with
  | nil => rw [List.mapM_nil, List.forall₂_nil_left_iff, Option.pure_def, Option.some_inj, eq_comm]
  | cons a l ih =>
    rw [List.mapM_cons, List.forall₂_cons_left_iff]
    constructor
    · intro h
      obtain ⟨b, hb, h⟩ := Option.bind_eq_some_iff.mp h
      obtain ⟨bs, hbs, h⟩ := Option.bind_eq_some_iff.mp h
      exact ⟨b, bs, hb, ih.mp hbs, (Option.some.inj h).symm⟩
    · rintro ⟨b, bs, hb, hbs, rfl⟩
      rw [hb, ih.mpr hbs]
      rfl

theorem exists_of_mem (h : l.mapM f = some bs) : ∀ b ∈ bs, ∃ a ∈ l, f a = some b := by
  obtain ⟨hlen, hget⟩ := List.forall₂_iff_get.mp (eq_some_iff.mp h)
  intro b hb
  obtain ⟨i, rfl⟩ := List.mem_iff_get.mp hb
  exact ⟨l.get ⟨i, hlen.symm ▸ i.2⟩, List.get_mem .., hget i _ i.2⟩

theorem exists_mem (h : l.mapM f = some bs) : ∀ a ∈ l, ∃ b ∈ bs, f a = some b := by
  obtain ⟨hlen, hget⟩ := List.forall₂_iff_get.mp (eq_some_iff.mp h)
  intro a ha
  obtain ⟨i, rfl⟩ := List.mem_iff_get.mp ha
  exact ⟨bs.get ⟨i, hlen ▸ i.2⟩, List.get_mem .., hget i i.2 _⟩

theorem isSome_iff : (l.mapM f).isSome ↔ ∀ a ∈ l, (f a).isSome := by
  induction l with
  | nil => exact iff_of_true rfl fun a ha => absurd ha List.not_mem_nil
  | cons a l ih =>
    rw [List.forall_mem_cons, ← ih, List.mapM_cons]
    cases f a with
    | none => simp
    | some b => cases l.mapM f <;> simp

theorem forall_iff {Q : β → Prop} :
    (∃ bs, l.mapM f = some bs ∧ ∀ b ∈ bs, Q b) ↔ ∀ a ∈ l, ∃ b, f a = some b ∧ Q b := by
  constructor
  · rintro ⟨bs, hbs, hQ⟩ a ha
    obtain ⟨b, hb, hab⟩ := exists_mem hbs a ha
    exact ⟨b, hab, hQ b hb⟩
  · intro h
    have hsome : (l.mapM f).isSome := isSome_iff.mpr fun a ha => by
      obtain ⟨b, hb, -⟩ := h a ha
      exact Option.isSome_iff_exists.mpr ⟨b, hb⟩
    obtain ⟨bs, hbs⟩ := Option.isSome_iff_exists.mp hsome
    refine ⟨bs, hbs, fun b hb => ?_⟩
    obtain ⟨a, ha, hab⟩ := exists_of_mem hbs b hb
    obtain ⟨b', hab', hQ⟩ := h a ha
    exact Option.some.inj (hab'.symm.trans hab) ▸ hQ

theorem id_isSome_iff {l : List (Option α)} : (∃ bs, l.mapM id = some bs) ↔ none ∉ l := by
  rw [← Option.isSome_iff_exists, isSome_iff]
  constructor
  · exact fun h hn => Bool.noConfusion (h none hn)
  · intro h a ha
    exact Option.isSome_iff_ne_none.mpr fun he => h (he ▸ ha)

theorem id_map_some (l : List α) : (l.map some).mapM id = some l :=
  eq_some_iff.mpr (List.forall₂_map_left_iff.mpr (List.forall₂_same.mpr fun _ _ => rfl))

end MapM

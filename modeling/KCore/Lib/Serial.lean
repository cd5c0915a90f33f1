import Mathlib.Data.List.Nodup

/-!
# Calls one after another

A call takes a state to the next one with an answer (`act`). The state and the answers of calls
that overlap are explained by an order of the calls, where each of them gives its answer in the state that those before
it leave (`Explains`). A call is added at the end of the order (`Explains.next`), and one that changes nothing
at any place (`Explains.insert`).
-/

namespace Serial

variable {ι σ α : Type*} (act : ι → σ → σ × α)

/-- The state after the calls, in order. -/
def serve (s : σ) (order : List ι) : σ := order.foldl (fun s i => (act i s).1) s

/-- The answers. -/
def replies (s : σ) : List ι → List (ι × α)
  | [] => []
  | i :: order => (i, (act i s).2) :: replies (act i s).1 order

@[simp] theorem serve_nil (s : σ) : serve act s [] = s := rfl

@[simp] theorem serve_cons (s : σ) (i : ι) (order : List ι) : serve act s (i :: order) = serve act (act i s).1 order := rfl

@[simp] theorem serve_append (s : σ) (as bs : List ι) : serve act s (as ++ bs) = serve act (serve act s as) bs :=
  List.foldl_append ..

theorem replies_append : ∀ (s : σ) (as bs : List ι),
    replies act s (as ++ bs) = replies act s as ++ replies act (serve act s as) bs
  | _, [], _ => rfl
  | s, i :: as, bs => congrArg (_ :: ·) (replies_append (act i s).1 as bs)

theorem map_fst_replies : ∀ (s : σ) (order : List ι), (replies act s order).map Prod.fst = order
  | _, [] => rfl
  | s, i :: order => congrArg (_ :: ·) (map_fst_replies (act i s).1 order)

variable {act}

theorem mem_replies_iff {i : ι} {a : α} : ∀ {s : σ} {order : List ι}, (i, a) ∈ replies act s order ↔
    ∃ before after, order = before ++ i :: after ∧ (act i (serve act s before)).2 = a
  | s, [] => iff_of_false List.not_mem_nil fun ⟨before, _, h, _⟩ => by simp at h
  | s, j :: order => by
    rw [replies, List.mem_cons, mem_replies_iff]
    constructor
    · rintro (h | ⟨before, after, rfl, ha⟩)
      · obtain ⟨rfl, rfl⟩ := Prod.mk.inj h
        exact ⟨[], order, rfl, rfl⟩
      · exact ⟨j :: before, after, rfl, ha⟩
    · intro ⟨before, after, horder, ha⟩
      cases before with
      | nil =>
        obtain ⟨rfl, -⟩ := List.cons.inj horder
        exact .inl (Prod.ext rfl ha.symm)
      | cons k before =>
        obtain ⟨rfl, rfl⟩ := List.cons.inj horder
        exact .inr ⟨before, after, rfl, ha⟩

theorem exists_reply {s : σ} {order : List ι} {i : ι} (hi : i ∈ order) : ∃ a, (i, a) ∈ replies act s order := by
  rw [← map_fst_replies act s order] at hi
  obtain ⟨⟨_, a⟩, hr, rfl⟩ := List.mem_map.mp hi
  exact ⟨a, hr⟩

variable (act) in
/-- The calls with an answer, in an order in which they give the state and the answers. -/
structure Explains (start : σ) (order : List ι) (state : σ) (answered : ι → α → Prop) : Prop where
  nodup : order.Nodup
  state : serve act start order = state
  answers : ∀ i a, answered i a ↔ (i, a) ∈ replies act start order

variable {start state : σ} {order : List ι} {answered : ι → α → Prop}

theorem explains_nil (start : σ) : Explains act start [] start fun _ _ => False :=
  ⟨List.nodup_nil, rfl, fun _ _ => iff_of_false id List.not_mem_nil⟩

theorem Explains.notMem (h : Explains act start order state answered) {i : ι} (hi : ∀ a, ¬answered i a) : i ∉ order :=
  fun hmem =>
    have ⟨a, ha⟩ := exists_reply hmem
    hi a ((h.answers i a).mpr ha)

theorem Explains.congr {answered' : ι → α → Prop} (h : Explains act start order state answered)
    (hiff : ∀ i a, answered' i a ↔ answered i a) : Explains act start order state answered' :=
  ⟨h.nodup, h.state, fun i a => (hiff i a).trans (h.answers i a)⟩

/-- A call without an answer comes next. -/
theorem Explains.next (h : Explains act start order state answered) {i : ι} (hi : ∀ a, ¬answered i a) :
    Explains act start (order ++ [i]) (act i state).1 fun j b => answered j b ∨ j = i ∧ b = (act i state).2 where
  nodup := List.nodup_append.mpr ⟨h.nodup, List.nodup_singleton i, fun a ha b hb => by
    rw [List.mem_singleton.mp hb]
    exact fun he => h.notMem hi (he ▸ ha)⟩
  state := by rw [serve_append, h.state, serve_cons, serve_nil]
  answers j b := by
    rw [replies_append, h.state, List.mem_append, ← h.answers]
    simp only [replies, List.mem_singleton, Prod.mk.injEq]

/-- A call without an answer that changes nothing after the calls of `before`. -/
theorem Explains.insert {before after : List ι} (h : Explains act start (before ++ after) state answered) {i : ι} {a : α}
    (hi : ∀ a, ¬answered i a) (hquiet : act i (serve act start before) = (serve act start before, a)) :
    Explains act start (before ++ i :: after) state fun j b => answered j b ∨ j = i ∧ b = a where
  nodup := List.nodup_middle.mpr (List.nodup_cons.mpr ⟨h.notMem hi, h.nodup⟩)
  state := by rw [serve_append, serve_cons, hquiet, ← serve_append, h.state]
  answers j b := by
    rw [h.answers, replies_append, replies_append, replies, hquiet]
    simp only [List.mem_append, List.mem_cons, Prod.mk.injEq]
    tauto

/-- The calls of the order are those with an answer, and each has the answer that it gives at its place. -/
theorem Explains.places (h : Explains act start order state answered) :
    (∀ i, i ∈ order ↔ ∃ a, answered i a) ∧ ∀ i a, answered i a →
      ∃ before after, order = before ++ i :: after ∧ a = (act i (serve act start before)).2 := by
  have hplace : ∀ i a, answered i a →
      ∃ before after, order = before ++ i :: after ∧ a = (act i (serve act start before)).2 := by
    intro i a ha
    obtain ⟨before, after, horder, ha⟩ := mem_replies_iff.mp ((h.answers i a).mp ha)
    exact ⟨before, after, horder, ha.symm⟩
  refine ⟨fun i => ⟨fun hi => ?_, fun ⟨a, ha⟩ => ?_⟩, hplace⟩
  · obtain ⟨a, ha⟩ : ∃ a, (i, a) ∈ replies act start order := exists_reply hi
    exact ⟨a, (h.answers i a).mpr ha⟩
  · obtain ⟨before, after, rfl, -⟩ := hplace i a ha
    exact List.mem_append_right _ (.head _)

end Serial

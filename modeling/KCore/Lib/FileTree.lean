import KCore.Lib.Dict

/-!
# File trees

A tree is a file or a directory of named trees. `write` puts a tree at a path and makes
the directories above it, `remove` takes one away. What is at a path apart from that one
stays (`lookup_write_apart`, `lookup_remove_apart`), and so do the directories above it
(`isDir_write`, `isDir_remove`).
-/

inductive FileTree (α β : Type*)
  | file (content : β)
  | dir (children : List (α × FileTree α β))

namespace FileTree

variable {α β : Type*} [DecidableEq α] {p q : List α} {t t' new : FileTree α β}

/-- What is at a path. -/
def lookup : List α → FileTree α β → Option (FileTree α β)
  | [], t => some t
  | n :: p, dir cs => (Dict.find n cs).bind (lookup p)
  | _ :: _, file _ => none

/-- `new` at a path; `none` where a file stands in its way. -/
def write : List α → FileTree α β → FileTree α β → Option (FileTree α β)
  | [], new, _ => some new
  | n :: p, new, dir cs => (write p new ((Dict.find n cs).getD (dir []))).map fun c => dir (Dict.put n c cs)
  | _ :: _, _, file _ => none

/-- Nothing at a path; the root stays. -/
def remove : List α → FileTree α β → FileTree α β
  | [], t => t
  | [n], dir cs => dir (cs.filter (·.1 ≠ n))
  | n :: m :: p, dir cs =>
    match Dict.find n cs with
    | none => dir cs
    | some c => dir (Dict.put n (remove (m :: p) c) cs)
  | _ :: _, file c => file c

/-- Neither path leads to the other. -/
def Apart (p q : List α) : Prop := ¬p <+: q ∧ ¬q <+: p

instance : Decidable (Apart p q) := inferInstanceAs (Decidable (_ ∧ _))

omit [DecidableEq α] in
theorem Apart.symm (h : Apart p q) : Apart q p := ⟨h.2, h.1⟩

omit [DecidableEq α] in
theorem apart_append {r : List α} : Apart (r ++ p) (r ++ q) ↔ Apart p q := by
  rw [Apart, Apart, List.prefix_append_right_inj, List.prefix_append_right_inj]

omit [DecidableEq α] in
/-- Paths apart stay apart when they are continued. -/
theorem Apart.append (h : Apart p q) (r r' : List α) : Apart (p ++ r) (q ++ r') := by
  have key {a b r r' : List α} (h : ¬a <+: b) (h' : ¬b <+: a) : ¬a ++ r <+: b ++ r' := fun hp => by
    have ha : a <+: b ++ r' := (List.prefix_append a r).trans hp
    exact (List.prefix_or_prefix_of_prefix ha (List.prefix_append b r')).elim h h'
  exact ⟨key h.1 h.2, key h.2 h.1⟩

omit [DecidableEq α] in
theorem apart_singleton {a b : α} (h : a ≠ b) : Apart [a] [b] := by
  simp [Apart, List.cons_prefix_cons, h, Ne.symm h]

theorem lookup_append : ∀ (p q : List α) (t : FileTree α β), lookup (p ++ q) t = (lookup p t).bind (lookup q)
  | [], _, _ => rfl
  | n :: p, q, dir cs => by
    simp only [List.cons_append, lookup, Option.bind_assoc]
    exact congrArg (Option.bind (Dict.find n cs)) (funext fun c => lookup_append p q c)
  | _ :: _, _, file _ => rfl

/-! ## Writing -/

theorem lookup_write (q : List α) : ∀ {p : List α} {t t' : FileTree α β}, write p new t = some t' →
    lookup (p ++ q) t' = lookup q new
  | [], _, _, h => by
    obtain rfl := Option.some.inj h
    rfl
  | n :: p, dir cs, t', h => by
    obtain ⟨c, hc, rfl⟩ := Option.map_eq_some_iff.mp h
    simp only [List.cons_append, lookup, Dict.find_put_self, Option.bind_some]
    exact lookup_write q hc
  | _ :: _, file _, _, h => nomatch h

theorem lookup_write_apart : ∀ {p q : List α} {t t' : FileTree α β}, write p new t = some t' → Apart p q →
    lookup q t' = lookup q t
  | [], q, _, _, _, ha => absurd List.nil_prefix ha.1
  | _ :: _, [], _, _, _, ha => absurd List.nil_prefix ha.2
  | n :: p, m :: q, dir cs, t', h, ha => by
    obtain ⟨c, hc, rfl⟩ := Option.map_eq_some_iff.mp h
    by_cases hn : m = n
    · subst hn
      have ha' : Apart p q := (apart_append (r := [m])).mp ha
      simp only [lookup, Dict.find_put_self, Option.bind_some]
      rw [lookup_write_apart hc ha']
      cases hfind : Dict.find m cs with
      | some d => rfl
      | none =>
        obtain ⟨k, q, rfl⟩ := List.exists_cons_of_ne_nil (l := q) fun hq => ha'.2 (hq ▸ List.nil_prefix)
        rfl
    · simp only [lookup, Dict.find_put_of_ne hn]
  | _ :: _, _ :: _, file _, _, h, _ => nomatch h

/-- A directory takes a new child. -/
theorem write_child (n : α) (new : FileTree α β) : ∀ {p : List α} {t : FileTree α β} {cs : List (α × FileTree α β)},
    lookup p t = some (dir cs) →
      ∃ t', write (p ++ [n]) new t = some t' ∧ lookup p t' = some (dir (Dict.put n new cs))
  | [], t, cs, h => by
    obtain rfl := Option.some.inj h
    exact ⟨_, rfl, rfl⟩
  | m :: p, dir ds, cs, h => by
    obtain ⟨c, hc, hp⟩ := Option.bind_eq_some_iff.mp h
    obtain ⟨c', hw, hl⟩ := write_child n new hp
    refine ⟨dir (Dict.put m c' ds), ?_, ?_⟩
    · simp only [List.cons_append, write, hc, Option.getD_some, hw, Option.map_some]
    · simp only [lookup, Dict.find_put_self, Option.bind_some, hl]
  | _ :: _, file _, _, h => nomatch h

/-! ## Removing -/

theorem lookup_remove (q : List α) : ∀ {p : List α} (t : FileTree α β), p ≠ [] → lookup (p ++ q) (remove p t) = none
  | [], _, h => absurd rfl h
  | [n], dir cs, _ => by
    simp only [List.singleton_append, remove, lookup, Dict.find_filter_self, Option.bind_none]
  | n :: m :: p, dir cs, _ => by
    rw [remove]
    cases hfind : Dict.find n cs with
    | none => simp only [List.cons_append, lookup, hfind, Option.bind_none]
    | some c =>
      simp only [List.cons_append, lookup, Dict.find_put_self, Option.bind_some]
      exact lookup_remove q c (List.cons_ne_nil m p)
  | [_], file _, _ | _ :: _ :: _, file _, _ => rfl

/-- A directory loses a child. -/
theorem remove_child {n : α} : ∀ {p : List α} {t : FileTree α β} {cs : List (α × FileTree α β)},
    lookup p t = some (dir cs) → lookup p (remove (p ++ [n]) t) = some (dir (cs.filter (·.1 ≠ n)))
  | [], t, cs, h => by
    obtain rfl := Option.some.inj h
    rfl
  | m :: p, dir ds, cs, h => by
    obtain ⟨c, hc, hp⟩ := Option.bind_eq_some_iff.mp h
    obtain ⟨k, q, hq⟩ := List.exists_cons_of_ne_nil (l := p ++ [n]) (by simp)
    rw [List.cons_append, hq, remove, hc]
    simp only [lookup, Dict.find_put_self, Option.bind_some]
    exact hq ▸ remove_child hp
  | _ :: _, file _, _, h => nomatch h

theorem lookup_remove_apart : ∀ {p q : List α} {t : FileTree α β}, Apart p q → lookup q (remove p t) = lookup q t
  | [], q, _, ha => absurd List.nil_prefix ha.1
  | _ :: _, [], _, ha => absurd List.nil_prefix ha.2
  | [n], m :: q, dir cs, ha => by
    have hn : m ≠ n := fun hn => ha.1 (by simp [hn, List.cons_prefix_cons])
    simp only [remove, lookup, Dict.find_filter_of_ne hn]
  | n :: k :: p, m :: q, dir cs, ha => by
    rw [remove]
    cases hfind : Dict.find n cs with
    | none => rfl
    | some c =>
      by_cases hn : m = n
      · subst hn
        simp only [lookup, Dict.find_put_self, Option.bind_some, hfind]
        exact lookup_remove_apart ((apart_append (r := [m])).mp ha)
      · simp only [lookup, Dict.find_put_of_ne hn]
  | [_], _ :: _, file _, _ | _ :: _ :: _, _ :: _, file _, _ => rfl

/-! ## Directories -/

/-- A directory is at the path. -/
def IsDir (p : List α) (t : FileTree α β) : Prop := ∃ cs, lookup p t = some (dir cs)

/-- What is no directory has none below it. -/
theorem not_prefix_of_isDir (hp : ∀ cs, lookup p t ≠ some (dir cs)) (hq : IsDir q t) : ¬p <+: q := by
  rintro ⟨r, rfl⟩
  obtain ⟨cs, hcs⟩ := hq
  rw [lookup_append] at hcs
  obtain ⟨t', ht', hr⟩ := Option.bind_eq_some_iff.mp hcs
  cases t' with
  | dir ds => exact hp ds ht'
  | file c => cases r with
    | nil => cases hr
    | cons => cases hr

theorem isDir_write : ∀ {p q : List α} {t t' : FileTree α β}, write p new t = some t' → IsDir q t → ¬p <+: q →
    IsDir q t'
  | [], _, _, _, _, _, hq => absurd List.nil_prefix hq
  | _ :: _, [], dir cs, _, h, _, _ => by
    obtain ⟨c, -, rfl⟩ := Option.map_eq_some_iff.mp h
    exact ⟨_, rfl⟩
  | n :: p, m :: q, dir cs, t', h, ⟨ds, hd⟩, hq => by
    obtain ⟨c, hc, rfl⟩ := Option.map_eq_some_iff.mp h
    obtain ⟨d, hm, hd⟩ := Option.bind_eq_some_iff.mp hd
    unfold IsDir
    by_cases hn : m = n
    · subst hn
      rw [hm, Option.getD_some] at hc
      simp only [lookup, Dict.find_put_self, Option.bind_some]
      exact isDir_write hc ⟨ds, hd⟩ fun hp => hq ((List.prefix_cons_inj m).mpr hp)
    · simp only [lookup, Dict.find_put_of_ne hn, hm, Option.bind_some]
      exact ⟨ds, hd⟩
  | _ :: _, _, file _, _, h, _, _ => nomatch h

theorem isDir_remove : ∀ {p q : List α} {t : FileTree α β}, IsDir q t → ¬p <+: q → IsDir q (remove p t)
  | [], _, _, _, hq => absurd List.nil_prefix hq
  | [n], [], dir cs, _, _ => ⟨_, rfl⟩
  | [n], m :: q, dir cs, ⟨ds, hd⟩, hq => by
    have hn : m ≠ n := fun hn => hq (by simp [hn, List.cons_prefix_cons])
    refine ⟨ds, ?_⟩
    simpa only [remove, lookup, Dict.find_filter_of_ne hn] using hd
  | n :: k :: p, q, dir cs, hd, hq => by
    rw [remove]
    cases hfind : Dict.find n cs with
    | none => exact hd
    | some c =>
      cases q with
      | nil => exact ⟨_, rfl⟩
      | cons m q =>
        obtain ⟨ds, hd⟩ := hd
        unfold IsDir
        by_cases hn : m = n
        · subst hn
          simp only [lookup, Dict.find_put_self, Option.bind_some, hfind] at hd ⊢
          exact isDir_remove ⟨ds, hd⟩ fun hp => hq ((List.prefix_cons_inj m).mpr hp)
        · simp only [lookup, Dict.find_put_of_ne hn]
          exact ⟨ds, hd⟩
  | [_], _, file _, hd, _ | _ :: _ :: _, _, file _, hd, _ => hd

end FileTree

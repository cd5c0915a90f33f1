import KCore.Lib.Run
import KCore.Impl.Cache
import Mathlib.Algebra.Ring.Int.Defs
import Mathlib.Data.Int.Order.Basic

/-!
# What the in-memory cache holds

Fewer than 100 items; of one key the last one inserted, until it is deleted, is read
expired, or is one of the ten items with the least `created_at` when a new key comes to
99 stored ones (`in_memory_cache_ok`). Among equal times the key goes first that
came into the dictionary first, and an overwritten key has kept its place
(`overwritten_item_is_evicted`).
-/

namespace KCore.Cache

open Text Machine

variable {T V : Type*}

/-- `c'` holds under the other keys what `c` does. -/
def SameBut (key : Str) (c c' : InMemoryCache T V) : Prop := ∀ k, k ≠ key → c'.items.get? k = c.items.get? k

theorem items_delete (c : InMemoryCache T V) (key : Str) : (c.delete key).items = c.items.erase key := by
  unfold InMemoryCache.delete
  by_cases h : key ∈ c.items
  · rw [if_pos h]
  · rw [if_neg h]
    have hall : ∀ e ∈ c.items.entries, e.1 ≠ key := fun e he hk => h (List.mem_map.mpr ⟨e, he, hk⟩)
    refine Dict.ext (List.filter_eq_self.mpr fun e he => ?_).symm
    simpa using hall e he

/-- A cache as it was, or without the item under one key. -/
def Without (key : Str) (c c' : InMemoryCache T V) : Prop := c' = c ∨ c' = ⟨c.items.erase key⟩

namespace Without

variable {key : Str} {c c' : InMemoryCache T V}

theorem sameBut (h : Without key c c') : SameBut key c c' := fun k hk => by
  rcases h with rfl | rfl
  · rfl
  · rw [Dict.get?_erase, if_neg hk]

theorem keys (h : Without key c c') : c'.items.keys.Sublist c.items.keys := by
  rcases h with rfl | rfl
  · exact .refl _
  · exact List.filter_sublist.map _

theorem mem (h : Without key c c') {e : Str × CacheItem T V} (he : e ∈ c'.items.entries) : e ∈ c.items.entries := by
  rcases h with rfl | rfl
  · exact he
  · exact List.mem_of_mem_filter he

theorem size_le (h : Without key c c') : c'.size ≤ c.size := by
  rcases h with rfl | rfl
  · exact le_rfl
  · exact List.length_filter_le ..

end Without

theorem delete_without (c : InMemoryCache T V) (key : Str) : Without key c (c.delete key) :=
  .inr (congrArg InMemoryCache.mk (items_delete c key))

theorem items_foldl_delete (l : List (Str × CacheItem T V)) (c : InMemoryCache T V) :
    (l.foldl (fun c x => c.delete x.1) c).items = l.foldl (fun d x => d.erase x.1) c.items := by
  induction l generalizing c with
  | nil => rfl
  | cons x l ih => rw [List.foldl_cons, List.foldl_cons, ih, items_delete]

variable [LinearOrder T] [Add T] [Neg T] [One T]

/-- An inserted item is not older than those that are stored. -/
def Recent (c : InMemoryCache T V) : Call T V → Prop
  | .insert item => ∀ e ∈ c.items.entries, e.2.createdAt ≤ item.createdAt
  | _ => True

/-- `c'` is `c` with `item`, without the ten oldest of the others. -/
structure Evicts (c : InMemoryCache T V) (item : CacheItem T V) (c' : InMemoryCache T V)
    (evicted kept : List (Str × CacheItem T V)) : Prop where
  all : (evicted ++ kept).Perm c.items.entries
  ten : evicted.length = 10
  oldest : ∀ e ∈ evicted, ∀ k ∈ kept, Before (fun e => e.2.createdAt) c.items.entries e k
  entries : c'.items.entries.Perm (kept ++ [(item.key, item)])

/-- What a call leaves and returns. -/
def Law (c : InMemoryCache T V) : Call T V → Prop
  | .insert item =>
    (c.insert item).items.get? item.key = some item ∧
    (item.key ∈ c.items ∨ c.size < 99 → SameBut item.key c (c.insert item)) ∧
    (item.key ∉ c.items → c.size = 99 → ∃ evicted kept, Evicts c item (c.insert item) evicted kept)
  | .getItem key now =>
    (∀ item, (c.getItem key now).2 = some item ↔ c.items.get? key = some item ∧ item.isExpired now = false) ∧
    SameBut key c (c.getItem key now).1
  | .getValue key now =>
    (c.getValue key now).2 = (c.getItem key now).2.map CacheItem.value ∧ SameBut key c (c.getValue key now).1
  | .delete key => (c.delete key).items.get? key = none ∧ SameBut key c (c.delete key)

/-- Keys keep the order in which they came; a key that comes is the last. -/
def InOrder (c : InMemoryCache T V) (call : Call T V) : Prop :=
  match call with
  | .insert item => (c.step call).1.items.keys.Sublist (if item.key ∈ c.items then c.items.keys else c.items.keys ++ [item.key])
  | _ => (c.step call).1.items.keys.Sublist c.items.keys

/-! ## Insertion -/

section

omit [Add T] [Neg T] [One T]

variable {c : InMemoryCache T V} {item : CacheItem T V}

theorem insert_eq (c : InMemoryCache T V) (item : CacheItem T V) :
    c.insert item = if maxItems ≤ (c.items.set item.key item).entries.length then
      ((stableSort (fun x => x.2.createdAt) (c.items.set item.key item).entries).take (maxItems / 10)).foldl
        (fun c x => c.delete x.1) ⟨c.items.set item.key item⟩
      else ⟨c.items.set item.key item⟩ := rfl

/-- A cache that is not full takes the item. -/
theorem insert_of_lt (h : (c.items.set item.key item).entries.length < maxItems) :
    c.insert item = ⟨c.items.set item.key item⟩ := by
  rw [insert_eq, if_neg (Nat.not_le.mpr h)]

/-- Where the entries are in the order of their times, the first ten go. -/
theorem insert_of_sorted (h : maxItems ≤ (c.items.set item.key item).entries.length)
    (hs : (c.items.set item.key item).entries.Pairwise fun x y => x.2.createdAt ≤ y.2.createdAt) :
    c.insert item = ((c.items.set item.key item).entries.take (maxItems / 10)).foldl (fun c x => c.delete x.1)
      ⟨c.items.set item.key item⟩ := by
  rw [insert_eq, if_pos h, stableSort_of_pairwise hs]

omit [LinearOrder T] in
theorem length_set_of_mem (h : item.key ∈ c.items) : (c.items.set item.key item).entries.length = c.size := by
  have hkeys := congrArg List.length (Dict.keys_put_of_mem (v := item) h)
  rwa [List.length_map, List.length_map] at hkeys

omit [LinearOrder T] in
theorem entries_set_of_notMem (h : item.key ∉ c.items) :
    (c.items.set item.key item).entries = c.items.entries ++ [(item.key, item)] := Dict.entries_put_of_notMem h

/-- The new item is the last of the sorted ones, so it is not among the first ten. -/
theorem insert_evicts (hr : ∀ e ∈ c.items.entries, e.2.createdAt ≤ item.createdAt) (hnew : item.key ∉ c.items)
    (hsize : c.size = 99) : ∃ evicted kept, Evicts c item (c.insert item) evicted kept := by
  have hentries := entries_set_of_notMem hnew
  obtain ⟨s, hs⟩ := stableSort_concat (f := fun x : Str × CacheItem T V => x.2.createdAt) (x := (item.key, item)) hr
  have hperm : (s ++ [(item.key, item)]).Perm (c.items.entries ++ [(item.key, item)]) := hs ▸ stableSort_perm
  have hall : s.Perm c.items.entries := (List.perm_append_right_iff _).mp hperm
  have hlen : s.length = 99 := hall.length_eq.trans hsize
  have hkeys : ((s ++ [(item.key, item)]).map Prod.fst).Nodup := by
    rw [(hperm.map _).nodup_iff, ← hentries]
    exact (c.items.set item.key item).nodup
  have hsplit : s ++ [(item.key, item)] = s.take 10 ++ (s.drop 10 ++ [(item.key, item)]) := by
    rw [← List.append_assoc, List.take_append_drop]
  have hitems : (c.insert item).items.entries =
      (c.items.entries ++ [(item.key, item)]).filter fun e => e.1 ∉ (s.take 10).map Prod.fst := by
    have hfull : maxItems ≤ (c.items.set item.key item).entries.length := by
      rw [hentries, List.length_append]
      exact (congrArg (· + 1) hsize).ge
    have htake : (s ++ [(item.key, item)]).take (maxItems / 10) = s.take 10 :=
      List.take_append_of_le_length (by rw [hlen]; decide)
    rw [insert_eq, if_pos hfull, items_foldl_delete, Dict.entries_foldl_erase, hentries, hs, htake]
    exact List.filter_congr fun _ _ => decide_eq_decide.mpr Iff.rfl
  refine ⟨s.take 10, s.drop 10, ?_, ?_, fun e he k hk => ?_, ?_⟩
  · rwa [List.take_append_drop]
  · rw [List.length_take, hlen]
    rfl
  · have hbefore := pairwise_stableSort (f := fun x : Str × CacheItem T V => x.2.createdAt)
      (l := c.items.entries ++ [(item.key, item)])
    rw [hs, hsplit, List.pairwise_append] at hbefore
    refine (hbefore.2.2 e he k (List.mem_append_left _ hk)).of_concat ?_
    rintro rfl
    exact hnew (List.mem_map.mpr ⟨_, hall.subset (List.mem_of_mem_drop hk), rfl⟩)
  · rw [hitems]
    refine (hperm.symm.filter _).trans ?_
    rw [hsplit, List.map_append, List.nodup_append] at hkeys
    rw [hsplit, List.filter_append]
    have hnone : (s.take 10).filter (fun e => e.1 ∉ (s.take 10).map Prod.fst) = [] :=
      List.filter_eq_nil_iff.mpr fun e he h => of_decide_eq_true h (List.mem_map_of_mem he)
    have hrest : (s.drop 10 ++ [(item.key, item)]).filter (fun e => e.1 ∉ (s.take 10).map Prod.fst) =
        s.drop 10 ++ [(item.key, item)] := List.filter_eq_self.mpr fun e he => by
      exact decide_eq_true fun hm => hkeys.2.2 e.1 hm e.1 (List.mem_map_of_mem he) rfl
    rw [hnone, hrest, List.nil_append]

/-- The inserted item is stored under its key. -/
theorem Evicts.get? {c' : InMemoryCache T V} {evicted kept : List (Str × CacheItem T V)}
    (h : Evicts c item c' evicted kept) : c'.items.get? item.key = some item :=
  Dict.get?_eq_some.mpr (h.entries.symm.subset (List.mem_append_right kept (.head _)))

theorem Evicts.size {c' : InMemoryCache T V} {evicted kept : List (Str × CacheItem T V)}
    (h : Evicts c item c' evicted kept) (hsize : c.size = 99) : c'.size = 90 := by
  have hall := h.all.length_eq
  have hlen := h.entries.length_eq
  have hten := h.ten
  unfold InMemoryCache.size at hsize ⊢
  simp only [List.length_append, List.length_singleton] at hall hlen
  omega

/-- A cache of less than 100 items takes an item, or is full and takes it for ten others. -/
theorem insert_cases (hr : ∀ e ∈ c.items.entries, e.2.createdAt ≤ item.createdAt) (hsize : c.size < 100) :
    (c.insert item = ⟨c.items.set item.key item⟩ ∧ (c.items.set item.key item).entries.length < 100 ∧
      (item.key ∈ c.items ∨ c.size < 99)) ∨
    (item.key ∉ c.items ∧ c.size = 99 ∧ ∃ evicted kept, Evicts c item (c.insert item) evicted kept) := by
  by_cases hmem : item.key ∈ c.items
  · have hlen : (c.items.set item.key item).entries.length < 100 := by rwa [length_set_of_mem hmem]
    exact .inl ⟨insert_of_lt hlen, hlen, .inl hmem⟩
  · by_cases hfull : c.size = 99
    · exact .inr ⟨hmem, hfull, insert_evicts hr hmem hfull⟩
    · have hlt : c.size < 99 := by omega
      have hlen : (c.items.set item.key item).entries.length < 100 := by
        rw [entries_set_of_notMem hmem, List.length_append, List.length_singleton]
        exact Nat.succ_lt_succ hlt
      exact .inl ⟨insert_of_lt hlen, hlen, .inr hlt⟩

end

/-! ## Reading -/

section

variable (c : InMemoryCache T V) (key : Str) (now : T)

theorem getItem_without : Without key c (c.getItem key now).1 := by
  unfold InMemoryCache.getItem
  cases c.items.get? key with
  | none => exact .inl rfl
  | some item =>
    show Without key c (if item.isExpired now = true then _ else _ : InMemoryCache T V × _).1
    cases item.isExpired now with
    | false => exact .inl rfl
    | true => exact .inr rfl

theorem getItem_eq_some {item : CacheItem T V} : (c.getItem key now).2 = some item ↔
    c.items.get? key = some item ∧ item.isExpired now = false := by
  unfold InMemoryCache.getItem
  cases c.items.get? key with
  | none => exact iff_of_false nofun (fun h => nomatch h.1)
  | some stored =>
    show (if stored.isExpired now = true then _ else _ : InMemoryCache T V × _).2 = _ ↔ _
    cases hexp : stored.isExpired now with
    | false => exact ⟨fun h => ⟨h, Option.some.inj h ▸ hexp⟩, fun h => h.1⟩
    | true =>
      refine iff_of_false nofun fun ⟨h, hlive⟩ => ?_
      rw [← Option.some.inj h, hexp] at hlive
      cases hlive

end

/-! ## Runs -/

theorem size_step {c : InMemoryCache T V} (hsize : c.size < 100) : ∀ {call : Call T V}, Recent c call →
    (c.step call).1.size < 100
  | .insert item, hr => by
    rcases insert_cases hr hsize with ⟨heq, hlen, -⟩ | ⟨-, hfull, evicted, kept, h⟩
    · exact (congrArg InMemoryCache.size heq).trans_lt hlen
    · exact (h.size hfull).trans_lt (by decide)
  | .getItem key now, _ | .getValue key now, _ => (getItem_without c key now).size_le.trans_lt hsize
  | .delete key, _ => (delete_without c key).size_le.trans_lt hsize

theorem step_inOrder {c : InMemoryCache T V} : ∀ call : Call T V, InOrder c call
  | .insert item => by
    have hkeys : (c.items.set item.key item).keys =
        if item.key ∈ c.items then c.items.keys else c.items.keys ++ [item.key] := by
      by_cases hmem : item.key ∈ c.items
      · rw [if_pos hmem]
        exact Dict.keys_put_of_mem hmem
      · rw [if_neg hmem, Dict.keys, entries_set_of_notMem hmem, List.map_append]
        rfl
    show (c.insert item).items.keys.Sublist _
    rw [← hkeys, insert_eq]
    by_cases hfull : maxItems ≤ (c.items.set item.key item).entries.length
    · rw [if_pos hfull, items_foldl_delete, Dict.keys, Dict.entries_foldl_erase]
      exact List.filter_sublist.map _
    · rw [if_neg hfull]
  | .getItem key now | .getValue key now => (getItem_without c key now).keys
  | .delete key => (delete_without c key).keys

theorem step_law {c : InMemoryCache T V} (hsize : c.size < 100) : ∀ {call : Call T V}, Recent c call → Law c call
  | .insert item, hr => by
    rcases insert_cases hr hsize with ⟨heq, -, hroom⟩ | ⟨hnew, hfull, evicted, kept, h⟩
    · refine ⟨?_, fun _ k hk => ?_, fun hnew hfull => ?_⟩
      · rw [heq]
        exact Dict.get?_set_self ..
      · rw [heq]
        exact Dict.get?_set_of_ne _ _ hk
      · exact absurd hroom (by simp [hnew, hfull])
    · refine ⟨h.get?, fun hroom => ?_, fun _ _ => ⟨evicted, kept, h⟩⟩
      exact absurd hroom (by simp [hnew, hfull])
  | .getItem key now, _ => ⟨fun item => getItem_eq_some c key now, (getItem_without c key now).sameBut⟩
  | .getValue key now, _ => ⟨rfl, (getItem_without c key now).sameBut⟩
  | .delete key, _ => by
    refine ⟨?_, (delete_without c key).sameBut⟩
    rw [items_delete, Dict.get?_erase, if_pos rfl]

/-- In every run in which no inserted item is older than a stored one, every call leaves fewer than 100
items, with the keys in the order in which they came, and does what its law says: an insertion
evicts others only as a new key comes to 99, and then the ten oldest, of equal times the first in
the dictionary. -/
theorem in_memory_cache_ok (calls : List (Call T V))
    (h : Along (fun c call => (c.step call).1) Recent InMemoryCache.init calls) :
    Along (fun c call => (c.step call).1) (fun c call => (c.step call).1.size < 100 ∧ InOrder c call ∧ Law c call)
      InMemoryCache.init calls := by
  refine Along.of_invariant (I := fun c => c.size < 100) (fun c call hsize hr => size_step hsize hr)
    (fun c call hsize hr => ⟨size_step hsize hr, step_inOrder call, step_law hsize hr⟩) ?_ h
  show 0 < 100
  omega

/-! ## Items of one time -/

theorem mem_step {c : InMemoryCache T V} {e : Str × CacheItem T V} : ∀ {call : Call T V},
    e ∈ (c.step call).1.items.entries → e ∈ c.items.entries ∨ call = .insert e.2
  | .insert item, h => by
    have hset : e ∈ (c.items.set item.key item).entries := by
      have h : e ∈ (c.insert item).items.entries := h
      rw [insert_eq] at h
      split at h
      · rw [items_foldl_delete, Dict.entries_foldl_erase] at h
        exact (List.mem_filter.mp h).1
      · exact h
    have hget := Dict.get?_eq_some.mpr hset
    rw [Dict.get?_set] at hget
    split at hget
    · exact .inr (congrArg Call.insert (Option.some.inj hget))
    · exact .inl (Dict.get?_eq_some.mp hget)
  | .getItem key now, h | .getValue key now, h => .inl ((getItem_without c key now).mem h)
  | .delete key, h => .inl ((delete_without c key).mem h)

/-- Items made at one time are never older than one another. -/
theorem recent_of_time {t : T} : ∀ {calls : List (Call T V)} {c : InMemoryCache T V},
    (∀ e ∈ c.items.entries, e.2.createdAt = t) → (∀ item, .insert item ∈ calls → item.createdAt = t) →
    Along (fun c call => (InMemoryCache.step c call).1) Recent c calls
  | [], _, _, _ => trivial
  | call :: calls, c, hc, hcalls => by
    refine ⟨?_, recent_of_time (fun e he => ?_) fun item hi => hcalls item (.tail _ hi)⟩
    · cases call with
      | insert item => exact fun e he => ((hc e he).trans (hcalls item (.head _)).symm).le
      | getItem | getValue | delete => trivial
    · rcases mem_step he with he | rfl
      · exact hc e he
      · exact hcalls e.2 (.head _)

theorem run_insert (c : InMemoryCache T V) (item : CacheItem T V) :
    run (fun c call => (InMemoryCache.step c call).1) c [.insert item] = c.insert item := rfl

/-- Fewer than 100 new keys are kept, in the order in which they come. -/
theorem entries_run_insert {items : List (CacheItem T V)} (hkeys : (items.map CacheItem.key).Nodup)
    (hlen : items.length < 100) :
    (run (fun c call => (InMemoryCache.step c call).1) .init (items.map .insert)).items.entries =
      items.map fun i => (i.key, i) := by
  induction items using List.reverseRecOn with
  | nil => rfl
  | append_singleton items item ih =>
    rw [List.map_append, List.nodup_append] at hkeys
    rw [List.length_append, List.length_singleton] at hlen
    have hbefore := ih hkeys.1 (by omega)
    rw [List.map_append, run_append, List.map_singleton, run_insert]
    generalize run (fun c call => (InMemoryCache.step c call).1) .init (items.map .insert) = c at hbefore ⊢
    have hnew : item.key ∉ c.items := by
      rw [Dict.mem_def, Dict.keys, hbefore, List.map_map]
      exact fun hm => hkeys.2.2 item.key hm item.key (.head _) rfl
    have hset := entries_set_of_notMem hnew
    have hroom : (c.items.set item.key item).entries.length < maxItems := by
      rw [hset, List.length_append, hbefore, List.length_map]
      exact hlen
    rw [insert_of_lt hroom, hset, hbefore, List.map_append]
    rfl

def sampleItem (i value : Nat) : CacheItem Int Nat := ⟨List.replicate i 'k', value, none, 0⟩

/-- Keys 0 to 98, and key 0 again, all at one time. -/
def sampleCalls : List (Call Int Nat) :=
  ((List.range 99).map fun i => sampleItem i i).map .insert ++ [.insert (sampleItem 0 99)]

theorem sampleCalls_time (item : CacheItem Int Nat) (h : .insert item ∈ sampleCalls ++ [.insert (sampleItem 99 0)]) :
    item.createdAt = 0 := by
  simp only [sampleCalls, List.map_map, List.mem_append, List.mem_map, List.mem_singleton, Function.comp_apply,
    Call.insert.injEq] at h
  rcases h with (⟨i, -, rfl⟩ | rfl) | rfl <;> rfl

theorem in_memory_cache_sample_ok : Along (fun c call => (InMemoryCache.step c call).1)
    (fun c call => (c.step call).1.size < 100 ∧ InOrder c call ∧ Law c call) InMemoryCache.init
    (sampleCalls ++ [.insert (sampleItem 99 0)]) :=
  in_memory_cache_ok _ (recent_of_time (t := 0) (fun _ h => absurd h List.not_mem_nil) sampleCalls_time)

def sampleCache : InMemoryCache Int Nat := run (fun c call => (InMemoryCache.step c call).1) .init sampleCalls

theorem sampleCache_entries : sampleCache.items.entries = Dict.put (sampleItem 0 99).key (sampleItem 0 99)
    (((List.range 99).map fun i => sampleItem i i).map fun i => (i.key, i)) := by
  have hkeys : (((List.range 99).map fun i => sampleItem i i).map CacheItem.key).Nodup := by
    rw [List.map_map]
    exact List.nodup_range.map fun i j h => by simpa [sampleItem] using congrArg List.length h
  have hfirst := entries_run_insert hkeys (by rw [List.length_map, List.length_range]; omega)
  rw [sampleCache, sampleCalls, run_append, run_insert]
  generalize run (fun c call => (InMemoryCache.step c call).1) .init _ = c at hfirst ⊢
  have hroom : (c.items.set (sampleItem 0 99).key (sampleItem 0 99)).entries.length < maxItems := by
    rw [length_set_of_mem, InMemoryCache.size, hfirst]
    · decide
    · rw [Dict.mem_def, Dict.keys, hfirst]
      exact .head _
  rw [insert_of_lt hroom, Dict.entries_set, hfirst]

/-- The item stored last is evicted, since its key came first; one stored before at the same time is kept. -/
theorem overwritten_item_is_evicted :
    Along (fun c call => (InMemoryCache.step c call).1) Recent .init (sampleCalls ++ [.insert (sampleItem 99 0)]) ∧
    sampleCache.items.get? (sampleItem 0 0).key = some (sampleItem 0 99) ∧
    sampleCache.items.get? (sampleItem 10 0).key = some (sampleItem 10 10) ∧
    (sampleCache.insert (sampleItem 99 0)).items.get? (sampleItem 0 0).key = none ∧
    (sampleCache.insert (sampleItem 99 0)).items.get? (sampleItem 10 0).key = some (sampleItem 10 10) := by
  have hnew : (sampleItem 99 0).key ∉ sampleCache.items := by
    rw [Dict.mem_def, Dict.keys, sampleCache_entries]
    decide
  have hentries := entries_set_of_notMem hnew
  have htime : ∀ e ∈ (sampleCache.items.set (sampleItem 99 0).key (sampleItem 99 0)).entries, e.2.createdAt = 0 := by
    rw [hentries, sampleCache_entries]
    decide
  have hinsert : sampleCache.insert (sampleItem 99 0) = _ := insert_of_sorted
    (by rw [hentries, sampleCache_entries]; decide)
    (List.pairwise_of_forall_mem_list fun a ha b hb => by rw [htime a ha, htime b hb])
  refine ⟨recent_of_time (t := 0) (fun _ h => absurd h List.not_mem_nil) sampleCalls_time, ?_, ?_, ?_, ?_⟩
  · rw [Dict.get?, sampleCache_entries]
    decide
  · rw [Dict.get?, sampleCache_entries]
    decide
  · rw [hinsert, items_foldl_delete, Dict.get?, Dict.entries_foldl_erase, hentries, sampleCache_entries]
    decide
  · rw [hinsert, items_foldl_delete, Dict.get?, Dict.entries_foldl_erase, hentries, sampleCache_entries]
    decide

end KCore.Cache

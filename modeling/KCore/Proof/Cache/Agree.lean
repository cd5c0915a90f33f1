import Mathlib.Data.Set.Insert
import KCore.Proof.Cache.InMemory

/-!
# The two caches under the keys of working memories

A user id is part of a file name: where no id has a `/`, the file-system cache does
what the in-memory cache does. For the users of a run it does so just when their
files lie in directories that are there and no two of them are one file
(`caches_agree_iff`).
-/

namespace KCore.Cache

open Text Machine

variable {T V : Type*} [LinearOrder T] [Add T] [Neg T] [One T]

/-- A user id. -/
structure UserId where
  val : Str
  ok : '\x00' ∉ val ∧ val.length ≤ 100

/-- The file of a user's working memory. -/
def UserId.path (cacheDir : List Str) (u : UserId) : List Str := getFilePath cacheDir (workingMemoryKey u.val)

/-- The cache directory is made, and holds no item yet. -/
structure Start (cacheDir : List Str) (d : Disk T V) : Prop where
  made : d.IsDir cacheDir
  empty : ∀ u : UserId, d.lookup (u.path cacheDir) = none

/-- The files of the users lie in directories that are there, and are different files. -/
structure Usable (cacheDir : List Str) (d : Disk T V) (U : Set UserId) : Prop where
  dirs : ∀ u ∈ U, d.IsDir (u.path cacheDir).dropLast
  inj : ∀ u ∈ U, ∀ v ∈ U, u.path cacheDir = v.path cacheDir → u = v

/-! ## One call -/

theorem workingMemoryKey_inj {u v : UserId} (h : workingMemoryKey u.val = workingMemoryKey v.val) : u = v := by
  cases u
  cases v
  cases List.append_cancel_right h
  rfl

omit [LinearOrder T] [Add T] [Neg T] [One T] in
theorem dump_isDir {d d' : Disk T V} {path : List Str} {item : CacheItem T V} (h : d.dump path item = .ok d') :
    d.IsDir path.dropLast ∧ FileTree.write path (.file item) d = some d' := by
  unfold Disk.dump at h
  split at h
  · cases h
  · cases h
  · rename_i cs hdir
    refine ⟨⟨cs, hdir⟩, ?_⟩
    split at h
    · cases h
    all_goals
      split at h
      · cases h
      · rename_i hw
        cases h
        exact hw

omit [LinearOrder T] [Add T] [Neg T] [One T] in
theorem dump_ok {d : Disk T V} {path : List Str} (item : CacheItem T V) (hne : path ≠ [])
    (hdir : d.IsDir path.dropLast) (hno : ∀ cs, d.lookup path ≠ some (.dir cs)) :
    ∃ d', d.dump path item = .ok d' ∧ FileTree.write path (.file item) d = some d' := by
  obtain ⟨cs, hcs⟩ := hdir
  obtain ⟨d', hw, -⟩ := FileTree.write_child (path.getLast hne) (.file item) hcs
  rw [List.dropLast_append_getLast hne] at hw
  refine ⟨d', ?_, hw⟩
  unfold Disk.dump
  simp only [hcs, hw]
  split
  · rename_i ds hds
    exact absurd hds (hno ds)
  · rfl
  · rfl

/-- The files of the users hold what is stored in memory under their keys. -/
structure Same (cacheDir : List Str) (U : Set UserId) (c : InMemoryCache T V) (d : Disk T V) : Prop where
  dirs : ∀ u ∈ U, d.IsDir (u.path cacheDir).dropLast
  files : ∀ u ∈ U, d.lookup (u.path cacheDir) = (c.items.get? (workingMemoryKey u.val)).map .file

section

variable {cacheDir : List Str} {d₀ d : Disk T V} {U : Set UserId} {c : InMemoryCache T V}

omit [LinearOrder T] [Add T] [Neg T] [One T]

theorem Start.path_ne_nil (h : Start cacheDir d₀) (u : UserId) : u.path cacheDir ≠ [] := fun hu => by
  have hempty := h.empty u
  rw [hu] at hempty
  cases hempty

namespace Same

variable (h : Same cacheDir U c d) {u v : UserId}

include h

theorem no_dir (hu : u ∈ U) (cs : List (Str × Disk T V)) : d.lookup (u.path cacheDir) ≠ some (.dir cs) := by
  rw [h.files u hu]
  cases c.items.get? (workingMemoryKey u.val) <;> simp

/-- No user's file is above another's directory. -/
theorem not_prefix (hu : u ∈ U) (hv : v ∈ U) : ¬u.path cacheDir <+: (v.path cacheDir).dropLast :=
  FileTree.not_prefix_of_isDir (h.no_dir hu) (h.dirs v hv)

theorem apart (hu : u ∈ U) (hv : v ∈ U) (hne : u.path cacheDir ≠ v.path cacheDir) :
    FileTree.Apart (u.path cacheDir) (v.path cacheDir) := by
  have key {a b : UserId} (ha : a ∈ U) (hb : b ∈ U) (hab : a.path cacheDir ≠ b.path cacheDir) :
      ¬a.path cacheDir <+: b.path cacheDir := fun hp => by
    obtain ⟨r, hr⟩ := hp
    rcases r.eq_nil_or_concat with rfl | ⟨r, x, rfl⟩
    · exact hab (by rw [← hr, List.append_nil])
    · refine h.not_prefix ha hb ⟨r, ?_⟩
      rw [← hr, List.concat_eq_append, ← List.append_assoc, List.dropLast_concat]
  exact ⟨key hu hv hne, key hv hu hne.symm⟩

/-- A user's item is stored in both. -/
theorem write (hU : Usable cacheDir d₀ U) {d' : Disk T V} {item : CacheItem T V} (hu : u ∈ U)
    (hkey : item.key = workingMemoryKey u.val) (hw : FileTree.write (u.path cacheDir) (.file item) d = some d') :
    Same cacheDir U ⟨c.items.set item.key item⟩ d' := by
  refine ⟨fun v hv => FileTree.isDir_write hw (h.dirs v hv) (h.not_prefix hu hv), fun v hv => ?_⟩
  rw [Dict.get?_set, hkey]
  by_cases huv : v = u
  · rw [huv, if_pos rfl]
    have hfile := FileTree.lookup_write [] hw
    rwa [List.append_nil] at hfile
  · rw [if_neg fun hk => huv (workingMemoryKey_inj hk), ← h.files v hv]
    exact FileTree.lookup_write_apart hw (h.apart hu hv fun hp => huv (hU.inj u hu v hv hp).symm)

/-- A user's item is removed from both. -/
theorem remove (hU : Usable cacheDir d₀ U) (hne : u.path cacheDir ≠ []) (hu : u ∈ U) :
    Same cacheDir U ⟨c.items.erase (workingMemoryKey u.val)⟩ (d.remove (u.path cacheDir)) := by
  refine ⟨fun v hv => FileTree.isDir_remove (h.dirs v hv) (h.not_prefix hu hv), fun v hv => ?_⟩
  rw [Dict.get?_erase]
  by_cases huv : v = u
  · rw [huv, if_pos rfl]
    simpa using FileTree.lookup_remove [] d hne
  · rw [if_neg fun hk => huv (workingMemoryKey_inj hk), ← h.files v hv]
    exact FileTree.lookup_remove_apart (h.apart hu hv fun hp => huv (hU.inj u hu v hv hp).symm)

end Same

end

/-! ## Both caches, call by call -/

/-- The caches after a call to both. -/
def bothStep (cacheDir : List Str) (s : InMemoryCache T V × Disk T V) (call : Call T V) : InMemoryCache T V × Disk T V :=
  ((s.1.step call).1, (FileSystemCache.step cacheDir s.2 call).1)

/-- The call does not raise, and returns the same from both. -/
def Agree (cacheDir : List Str) (s : InMemoryCache T V × Disk T V) (call : Call T V) : Prop :=
  (FileSystemCache.step cacheDir s.2 call).2 = .ok (s.1.step call).2

/-- Fewer than 100 keys are stored after an insertion. -/
def Few (s : InMemoryCache T V × Disk T V) : Call T V → Prop
  | .insert item => (s.1.items.set item.key item).entries.length < 100
  | _ => True

section

variable {cacheDir : List Str} {d₀ d : Disk T V} {U : Set UserId} {c : InMemoryCache T V} {u : UserId}

theorem getItem_same (hstart : Start cacheDir d₀) (hU : Usable cacheDir d₀ U) (h : Same cacheDir U c d) (hu : u ∈ U)
    (now : T) : ∃ d', FileSystemCache.getItem cacheDir d (workingMemoryKey u.val) now =
      .ok (d', (c.getItem (workingMemoryKey u.val) now).2) ∧
      Same cacheDir U (c.getItem (workingMemoryKey u.val) now).1 d' := by
  have hfile := h.files u hu
  unfold FileSystemCache.getItem InMemoryCache.getItem
  unfold UserId.path at hfile
  cases hget : c.items.get? (workingMemoryKey u.val) with
  | none =>
    rw [hget, Option.map_none] at hfile
    simp only [hfile]
    exact ⟨d, rfl, h⟩
  | some item =>
    rw [hget, Option.map_some] at hfile
    simp only [hfile]
    cases item.isExpired now with
    | false => exact ⟨d, rfl, h⟩
    | true => exact ⟨_, rfl, h.remove hU (hstart.path_ne_nil u) hu⟩

/-- A call under a user's key agrees, and leaves the same in both caches. -/
theorem step_same (hstart : Start cacheDir d₀) (hU : Usable cacheDir d₀ U) (h : Same cacheDir U c d) :
    ∀ {call : Call T V}, (∃ u ∈ U, call.key = workingMemoryKey u.val) → Few (c, d) call →
      Agree cacheDir (c, d) call ∧ Same cacheDir U (c.step call).1 (FileSystemCache.step cacheDir d call).1
  | .insert item, ⟨u, hu, hkey⟩, hfew => by
    have hkey : item.key = workingMemoryKey u.val := hkey
    have hpath : getFilePath cacheDir item.key = u.path cacheDir := congrArg (getFilePath cacheDir) hkey
    obtain ⟨d', hd, hw⟩ := dump_ok item (hstart.path_ne_nil u) (h.dirs u hu) (h.no_dir hu)
    have hfs : FileSystemCache.step cacheDir d (.insert item) = (d', .ok .nothing) := by
      simp only [FileSystemCache.step, FileSystemCache.insert, hpath, hd]
      rfl
    refine ⟨congrArg Prod.snd hfs, ?_⟩
    rw [hfs]
    show Same cacheDir U (c.insert item) d'
    rw [insert_of_lt hfew]
    exact h.write hU hu hkey hw
  | .getItem key now, ⟨u, hu, hkey⟩, _ => by
    obtain rfl : key = workingMemoryKey u.val := hkey
    obtain ⟨d', hd, hs⟩ := getItem_same hstart hU h hu now
    have hfs : FileSystemCache.step cacheDir d (.getItem (workingMemoryKey u.val) now) =
        (d', .ok (.item (c.getItem (workingMemoryKey u.val) now).2)) := by
      simp only [FileSystemCache.step, hd]
      rfl
    refine ⟨congrArg Prod.snd hfs, ?_⟩
    rw [hfs]
    exact hs
  | .getValue key now, ⟨u, hu, hkey⟩, _ => by
    obtain rfl : key = workingMemoryKey u.val := hkey
    obtain ⟨d', hd, hs⟩ := getItem_same hstart hU h hu now
    have hfs : FileSystemCache.step cacheDir d (.getValue (workingMemoryKey u.val) now) =
        (d', .ok (.value (c.getValue (workingMemoryKey u.val) now).2)) := by
      simp only [FileSystemCache.step, FileSystemCache.getValue, hd]
      rfl
    refine ⟨congrArg Prod.snd hfs, ?_⟩
    rw [hfs]
    exact hs
  | .delete key, ⟨u, hu, hkey⟩, _ => by
    obtain rfl : key = workingMemoryKey u.val := hkey
    have hfile := h.files u hu
    unfold UserId.path at hfile
    unfold Agree
    simp only [FileSystemCache.step, FileSystemCache.delete, InMemoryCache.step]
    cases hget : c.items.get? (workingMemoryKey u.val) with
    | none =>
      rw [hget, Option.map_none] at hfile
      have hno : workingMemoryKey u.val ∉ c.items := Dict.get?_eq_none.mp hget
      simp only [hfile, InMemoryCache.delete, if_neg hno]
      exact ⟨rfl, h⟩
    | some item =>
      rw [hget, Option.map_some] at hfile
      have hitems : c.delete (workingMemoryKey u.val) = ⟨c.items.erase (workingMemoryKey u.val)⟩ :=
        congrArg InMemoryCache.mk (items_delete c _)
      simp only [hfile, hitems]
      exact ⟨rfl, h.remove hU (hstart.path_ne_nil u) hu⟩

end

/-! ## Users without a slash -/

theorem resolve_append (cs : List Str) {n : Str} (h : n ≠ [] ∧ n ≠ ".".toList ∧ n ≠ "..".toList) :
    ∀ dir : List Str, resolve dir (cs ++ [n]) = resolve dir cs ++ [n] := by
  induction cs with
  | nil =>
    intro dir
    simp only [List.nil_append, resolve, h.1, h.2.1, h.2.2, or_self, ite_false]
  | cons c cs ih =>
    intro dir
    simp only [List.cons_append, resolve]
    split
    · exact ih dir
    · split
      · exact ih _
      · exact ih _

/-- What is after the last `/` of a user's key. -/
theorem split_append {t : Str} (ht : '/' ∉ t) : ∀ s : Str, ∃ cs l, split '/' (s ++ t) = cs ++ [l ++ t] ∧
    ('/' ∉ s → cs = [] ∧ l = s)
  | [] => by
    refine ⟨[], [], ?_, fun _ => ⟨rfl, rfl⟩⟩
    have h : split '/' (join ['/'] [t]) = [t] := split_join (List.cons_ne_nil t []) (by simpa using ht)
    rwa [join, List.intercalate_singleton] at h
  | c :: s => by
    obtain ⟨cs, l, hs, hno⟩ := split_append ht s
    rw [split] at hs
    rw [split, List.cons_append, List.splitOn_cons_eq_if_modifyHead, hs]
    by_cases hc : c = '/'
    · refine ⟨[] :: cs, l, ?_, fun h => absurd (.head _) (hc ▸ h)⟩
      simp [hc]
    · cases cs with
      | nil =>
        refine ⟨[], c :: l, by simp [hc], fun h => ⟨rfl, ?_⟩⟩
        rw [(hno fun hs => h (.tail _ hs)).2]
      | cons d cs =>
        refine ⟨(c :: d) :: cs, l, by simp [hc], fun h => ?_⟩
        cases (hno fun hs => h (.tail _ hs)).1

/-- A working memory's file is never a directory's name, and with no `/` it is in the cache directory. -/
theorem UserId.path_eq (cacheDir : List Str) (u : UserId) : ∃ dir l,
    u.path cacheDir = dir ++ [l ++ "_working_memory.cache".toList] ∧ ('/' ∉ u.val → dir = cacheDir ∧ l = u.val) := by
  have hname : workingMemoryKey u.val ++ ".cache".toList = u.val ++ "_working_memory.cache".toList :=
    List.append_assoc ..
  obtain ⟨cs, l, hsplit, hno⟩ := split_append (t := "_working_memory.cache".toList) (by decide) u.val
  have hlong {name : Str} (h : name.length < 21) : l ++ "_working_memory.cache".toList ≠ name := fun he => by
    have htail : "_working_memory.cache".toList.length = 21 := by decide
    have hlen := congrArg List.length he
    rw [List.length_append, htail] at hlen
    omega
  have hplain : l ++ "_working_memory.cache".toList ≠ [] ∧ l ++ "_working_memory.cache".toList ≠ ".".toList ∧
      l ++ "_working_memory.cache".toList ≠ "..".toList := ⟨hlong (by decide), hlong (by decide), hlong (by decide)⟩
  unfold UserId.path getFilePath
  simp only [hname, hsplit]
  split
  · rename_i hroot
    refine ⟨resolve [] cs, l, resolve_append cs hplain [], fun h => ?_⟩
    rcases List.mem_append.mp (List.mem_of_mem_head? hroot) with hm | hm
    · exact absurd hm h
    · exact absurd hm (by decide)
  · refine ⟨resolve cacheDir cs, l, resolve_append cs hplain cacheDir, fun h => ?_⟩
    obtain ⟨rfl, rfl⟩ := hno h
    exact ⟨rfl, rfl⟩

section

omit [LinearOrder T] [Add T] [Neg T] [One T]

variable {cacheDir : List Str} {d₀ : Disk T V} {U : Set UserId}

theorem usable_of_no_slash (h : Start cacheDir d₀) (hU : ∀ u ∈ U, '/' ∉ u.val) : Usable cacheDir d₀ U := by
  have hpath {u : UserId} (hu : u ∈ U) : u.path cacheDir = cacheDir ++ [u.val ++ "_working_memory.cache".toList] := by
    obtain ⟨dir, l, hpath, hno⟩ := u.path_eq cacheDir
    obtain ⟨rfl, rfl⟩ := hno (hU u hu)
    exact hpath
  refine ⟨fun u hu => ?_, fun u hu v hv huv => ?_⟩
  · rw [hpath hu, List.dropLast_concat]
    exact h.made
  · rw [hpath hu, hpath hv] at huv
    have hval := List.append_cancel_right (List.singleton_inj.mp (List.append_cancel_left huv))
    cases u
    cases v
    cases hval
    rfl

end

/-! ## Runs -/

/-- The calls are made under the users' keys, and the clock does not go back. -/
structure Calls (U : Set UserId) (calls : List (Call T V)) : Prop where
  keys : ∀ call ∈ calls, ∃ u ∈ U, call.key = workingMemoryKey u.val
  clock : (calls.filterMap Call.reading).Pairwise (· ≤ ·)

section

variable {cacheDir : List Str} {d₀ d : Disk T V} {U : Set UserId} {c : InMemoryCache T V}

theorem run_agree (hstart : Start cacheDir d₀) (hU : Usable cacheDir d₀ U) {calls : List (Call T V)}
    (hcalls : Calls U calls) (hfew : Along (bothStep cacheDir) Few (.init, d₀) calls) :
    Along (bothStep cacheDir) (Agree cacheDir) (.init, d₀) calls := by
  have hstep (s : InMemoryCache T V × Disk T V) (call : Call T V) (h : Same cacheDir U s.1 s.2)
      (hp : (∃ u ∈ U, call.key = workingMemoryKey u.val) ∧ Few s call) :
      Agree cacheDir s call ∧ Same cacheDir U (bothStep cacheDir s call).1 (bothStep cacheDir s call).2 :=
    step_same hstart hU h hp.1 hp.2
  have hinit : Same cacheDir U .init d₀ := ⟨hU.dirs, fun u _ => hstart.empty u⟩
  exact Along.of_invariant (I := fun s => Same cacheDir U s.1 s.2) (fun s call h hp => (hstep s call h hp).2)
    (fun s call h hp => (hstep s call h hp).1) hinit ((along_of_forall _ hcalls.keys).and hfew)

theorem agree_insert {item : CacheItem T V} (h : Agree cacheDir (c, d) (.insert item)) :
    d.IsDir (getFilePath cacheDir item.key).dropLast ∧
      (FileSystemCache.step cacheDir d (.insert item)).1.lookup (getFilePath cacheDir item.key) = some (.file item) := by
  unfold Agree at h
  simp only [FileSystemCache.step, FileSystemCache.insert] at h ⊢
  cases hd : d.dump (getFilePath cacheDir item.key) item with
  | error e =>
    rw [hd] at h
    cases h
  | ok d' =>
    obtain ⟨hdir, hw⟩ := dump_isDir hd
    refine ⟨hdir, ?_⟩
    have hfile := FileTree.lookup_write [] hw
    rwa [List.append_nil] at hfile

theorem agree_getItem {key : Str} {now : T} {item : CacheItem T V}
    (hfile : d.lookup (getFilePath cacheDir key) = some (.file item)) (hlive : item.isExpired now = false)
    (h : Agree cacheDir (c, d) (.getItem key now)) : c.items.get? key = some item := by
  have hfs : FileSystemCache.step cacheDir d (.getItem key now) = (d, .ok (.item (some item))) := by
    simp only [FileSystemCache.step, FileSystemCache.getItem, hfile, hlive]
    rfl
  unfold Agree at h
  rw [hfs] at h
  have hmem : some item = (c.getItem key now).2 := Result.item.inj (Except.ok.inj h)
  exact ((getItem_eq_some c key now).mp hmem.symm).1

/-- Both caches return the same at every call of every run under the users' keys, and neither raises, just
when the users' files lie in directories that are there and are different files; so they do where no
user id has a `/`. -/
theorem caches_agree_iff [Inhabited V] (hstart : Start cacheDir d₀) (U : Set UserId) :
    ((∀ calls : List (Call T V), Calls U calls → Along (bothStep cacheDir) Few (.init, d₀) calls →
      Along (bothStep cacheDir) (Agree cacheDir) (.init, d₀) calls) ↔ Usable cacheDir d₀ U) ∧
    ((∀ u ∈ U, '/' ∉ u.val) → Usable cacheDir d₀ U) := by
  refine ⟨⟨fun h => ?_, fun hU calls hcalls hfew => run_agree hstart hU hcalls hfew⟩, usable_of_no_slash hstart⟩
  -- an item of `u`, and a look at what `v` has
  have hrun {u v : UserId} (hu : u ∈ U) (hv : v ∈ U) := h
    [.insert ⟨workingMemoryKey u.val, default, none, 1⟩, .getItem (workingMemoryKey v.val) 1]
    ⟨by simpa using ⟨⟨u, hu, rfl⟩, ⟨v, hv, rfl⟩⟩, by simp [Call.reading]⟩ ⟨show 1 < 100 by omega, trivial, trivial⟩
  refine ⟨fun u hu => (agree_insert (hrun hu hu).1).1, fun u hu v hv hpath => ?_⟩
  obtain ⟨hfirst, hsecond, -⟩ := hrun hu hv
  have hfile := (agree_insert hfirst).2
  change FileTree.lookup (u.path cacheDir) _ = _ at hfile
  rw [hpath] at hfile
  have hget := agree_getItem hfile rfl hsecond
  -- in memory only `u` has an item
  have hinsert : InMemoryCache.insert .init ⟨workingMemoryKey u.val, default, none, 1⟩ =
      (⟨_⟩ : InMemoryCache T V) := insert_of_lt (show 1 < 100 by omega)
  change (InMemoryCache.insert .init _).items.get? _ = _ at hget
  rw [hinsert, Dict.get?_set] at hget
  split at hget
  · rename_i hkey
    exact (workingMemoryKey_inj hkey).symm
  · cases hget

end

/-! ## Two users -/

instance (s : InMemoryCache T V × Disk T V) : ∀ call, Decidable (Few s call)
  | .insert item => inferInstanceAs (Decidable ((s.1.items.set item.key item).entries.length < 100))
  | .getItem .. | .getValue .. | .delete _ => .isTrue trivial

instance [DecidableEq V] (cacheDir : List Str) (s : InMemoryCache T V × Disk T V) (call : Call T V) :
    Decidable (Agree cacheDir s call) := inferInstanceAs (Decidable (_ = _))

def sampleDisk : Disk Int Unit := .dir [("cache".toList, .dir [])]

theorem sampleDisk_start : Start ["cache".toList] sampleDisk := by
  refine ⟨⟨[], rfl⟩, fun u => ?_⟩
  obtain ⟨dir, l, hpath, -⟩ := u.path_eq ["cache".toList]
  have hne : "cache".toList ≠ l ++ "_working_memory.cache".toList := fun h => by
    have hlen := congrArg List.length h
    rw [List.length_append] at hlen
    have htail : "_working_memory.cache".toList.length = 21 := by decide
    have hcache : "cache".toList.length = 5 := by decide
    omega
  rw [hpath]
  generalize l ++ "_working_memory.cache".toList = name at hne
  unfold sampleDisk
  generalize "cache".toList = cache at hne
  match dir with
  | [] => simp [FileTree.lookup, Dict.find, hne]
  | a :: dir =>
    simp only [List.cons_append, FileTree.lookup, Dict.find]
    split
    · cases dir <;> rfl
    · rfl

def alice : UserId := ⟨"alice".toList, by decide⟩

def aliceItem : CacheItem Int Unit := ⟨workingMemoryKey alice.val, (), none, 0⟩

def bob : UserId := ⟨"bob".toList, by decide⟩

def bobItem : CacheItem Int Unit := ⟨workingMemoryKey bob.val, (), none, 1⟩

theorem two_users_agree : Along (bothStep ["cache".toList]) (Agree ["cache".toList]) (.init, sampleDisk)
    [.insert aliceItem, .getItem bobItem.key 1, .insert bobItem, .delete aliceItem.key, .getItem bobItem.key 2] := by
  have h := caches_agree_iff sampleDisk_start {alice, bob}
  refine (h.1.mpr (h.2 fun u hu => ?_)) _ ⟨?_, by decide⟩ (by decide +kernel)
  · rcases hu with rfl | rfl <;> decide
  · simp [Call.key, aliceItem, bobItem]

/-- A user id with a `/` cannot be stored, or reads the working memory of another user. -/
theorem slash_in_user_id :
    ¬Along (bothStep ["cache".toList]) (Agree ["cache".toList]) (.init, sampleDisk)
      [.insert { aliceItem with key := workingMemoryKey "a/b".toList }] ∧
    ¬Along (bothStep ["cache".toList]) (Agree ["cache".toList]) (.init, sampleDisk)
      [.insert aliceItem, .getItem (workingMemoryKey "x/../alice".toList) 1] := by
  decide +kernel

end KCore.Cache

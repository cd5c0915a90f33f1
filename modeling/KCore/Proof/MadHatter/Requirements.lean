import KCore.Impl.MadHatter.Requirements
import Mathlib.Data.List.TakeWhile

/-!
# Which requirements are installed

A line that is no requirement ends the check of the lines (`filtered_eq`), so
what stands behind the first blank or comment line is not installed;
`install_requirements_iff` says when that leaves nothing out.
-/

namespace KCore.MadHatter

open Text

/-- A line without a requirement: blank, or a comment. -/
def isBlankOrComment (line : Str) : Bool := strip line = [] ∨ (strip line).head? = some '#'

/-- What `Requirement` makes of the lines of a file: it refuses blank lines and comments, and nothing else. -/
structure Parses (requirementName : Str → Option Str) (lines : List Str) : Prop where
  refuses : ∀ line ∈ lines, isBlankOrComment line = true → requirementName line = none
  names : ∀ line ∈ lines, isBlankOrComment line = false → ∃ name, requirementName line = some name

/-- What the call promises of the lines it passed to `pip install`. -/
structure Installs (requirementName : Str → Option Str) (installedPackages lines passed : List Str) : Prop where
  missing : ∀ line ∈ lines, ∀ name, requirementName line = some name → name ∉ installedPackages → line ∈ passed
  others : ∀ line ∈ passed, ∀ name, requirementName line = some name → name ∉ installedPackages

/-- The lines before the first that is no requirement. -/
def checked (lines : List Str) : List Str := lines.takeWhile fun line => !isBlankOrComment line

/-- The other lines. -/
def unchecked (lines : List Str) : List Str := lines.dropWhile fun line => !isBlankOrComment line

section

variable {requirementName : Str → Option Str} {installedPackages : List Str}

theorem mem_filtered : ∀ {lines : List Str}, Parses requirementName lines → ∀ {line : Str},
    line ∈ filteredRequirements requirementName installedPackages lines ↔
      line ∈ checked lines ∧ ∀ name, requirementName line = some name → name ∉ installedPackages
  | [], _, line => by simp [filteredRequirements, checked]
  | req :: lines, h, line => by
    have hl : Parses requirementName lines :=
      ⟨fun l hl => h.refuses l (.tail _ hl), fun l hl => h.names l (.tail _ hl)⟩
    have ih := @mem_filtered lines hl line
    cases hb : isBlankOrComment req with
    | true => simp [filteredRequirements, h.refuses req (.head _) hb, checked, hb]
    | false =>
      obtain ⟨name, hn⟩ := h.names req (.head _) hb
      have hc : checked (req :: lines) = req :: checked lines := List.takeWhile_cons_of_pos (by simp [hb])
      simp only [filteredRequirements, hn, hc, List.mem_cons]
      split
      · rename_i hi
        rw [List.mem_cons, ih]
        constructor
        · rintro (rfl | ⟨hm, hk⟩)
          · exact ⟨.inl rfl, fun n hn' => Option.some.inj (hn.symm.trans hn') ▸ hi⟩
          · exact ⟨.inr hm, hk⟩
        · rintro ⟨rfl | hm, hk⟩
          · exact .inl rfl
          · exact .inr ⟨hm, hk⟩
      · rename_i hi
        rw [ih]
        constructor
        · exact fun ⟨hm, hk⟩ => ⟨.inr hm, hk⟩
        · rintro ⟨rfl | hm, hk⟩
          · exact absurd (hk name hn) hi
          · exact ⟨hm, hk⟩

/-- What is passed, where the call returns. -/
theorem installRequirements_passed {pip : Str → Bool} {lines passed : List Str}
    (h : installRequirements requirementName pip installedPackages (some lines) = some passed) :
    passed = filteredRequirements requirementName installedPackages lines := by
  simp only [installRequirements] at h
  split at h
  · rename_i he
    rw [← Option.some.inj h, List.length_eq_zero_iff.mp he]
  · split at h
    · exact (Option.some.inj h).symm
    · cases h

end

/-- Where the call returns, all missing requirements and no others were installed exactly when every requirement
behind the first blank or comment line is one of an installed package, or is also before it. -/
theorem install_requirements_iff {requirementName : Str → Option Str} {lines : List Str}
    (hp : Parses requirementName lines) {installedPackages : List Str} {pip : Str → Bool} {passed : List Str}
    (hr : installRequirements requirementName pip installedPackages (some lines) = some passed) :
    Installs requirementName installedPackages lines passed ↔
      ∀ line ∈ unchecked lines, ∀ name, requirementName line = some name → name ∉ installedPackages →
        line ∈ checked lines := by
  have hsplit : checked lines ++ unchecked lines = lines := List.takeWhile_append_dropWhile
  rw [installRequirements_passed hr]
  constructor
  · intro h line hl name hn hi
    have hmem : line ∈ lines := by
      rw [← hsplit]
      exact List.mem_append_right _ hl
    exact ((mem_filtered hp).mp (h.missing line hmem name hn hi)).1
  · intro h
    refine ⟨fun line hl name hn hi => (mem_filtered hp).mpr ⟨?_, fun n hn' => ?_⟩, fun line hl => ((mem_filtered hp).mp hl).2⟩
    · rw [← hsplit, List.mem_append] at hl
      exact hl.elim id fun hl => h line hl name hn hi
    · rwa [← Option.some.inj (hn.symm.trans hn')]

/-- The name in a line, of lines that are a name or none. -/
def lineName (line : Str) : Option Str := if isBlankOrComment line then none else some (strip line)

theorem lineName_parses (lines : List Str) : Parses lineName lines :=
  ⟨fun _ _ h => if_pos h, fun _ _ h => ⟨_, if_neg (by simp [h])⟩⟩

/-- The comment stands last, and the package before it is installed. -/
theorem install_requirements_requests :
    Installs lineName ["numpy".toList] ["numpy\n".toList, "pytz\n".toList, "# later\n".toList] ["pytz\n".toList] :=
  (install_requirements_iff (lineName_parses _) (show installRequirements _ (fun _ => true) _ _ = _ by decide)).mpr
    (by decide)

/-- A comment line first: `pip` is not called, and the package is missing. -/
theorem commented_requirements_missing :
    installRequirements lineName (fun _ => true) [] (some ["# time\n".toList, "pytz\n".toList]) = some [] ∧
      ¬Installs lineName [] ["# time\n".toList, "pytz\n".toList] [] := by
  refine ⟨by decide, fun h => ?_⟩
  exact absurd (h.missing "pytz\n".toList (by decide) "pytz".toList (by decide) (by decide)) (by decide)

end KCore.MadHatter

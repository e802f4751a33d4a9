import YdbSnippets.Dns.Names

/-!
# The spellings of a record name

The API may report a record under its full name or relative to the zone.
`absolute_name` tells the two apart by the text alone.
-/

namespace YdbSnippets
namespace Dns

open Python Text

section Spellings

variable {py : Interpreter} {body zone : Str} {prefixes : List Str}

/-- The full name of a record, from the part in front of the zone. -/
def fullName (zone relative : Str) : Str :=
  if relative = [] then zone else relative ++ '.' :: zone

/-- How the API spells names. -/
inductive Spelling
  | absolute
  | relative
deriving DecidableEq, Repr

/-- `name` is what the API reports for a record, in any letter case. -/
def Reports
    (py : Interpreter) (zone relative : Str) (spelling : Spelling) (name : Str) : Prop :=
  match spelling with
  | .absolute => py.lower (strip name) = fullName zone relative
  | .relative => py.lower (strip name) = relative

/-- `label` and `pre` make up the full name of a record the script manages. -/
def ManagedAs
    (zone : Str) (prefixes : List Str) (name label pre : Str) : Prop :=
  isDnsLabel label = true ∧ pre ∈ prefixes ∧ name = serverName label pre zone

/-- The reported name is mapped to the full name and the label of the record if
the script manages it, and to no label otherwise. -/
def Recognised
    (py : Interpreter) (zone : Str) (prefixes : List Str) (full name : Str) : Prop :=
  (∀ label pre, ManagedAs zone prefixes full label pre →
    absoluteName py name zone = serverName label pre zone ∧
      managedLabel py name zone prefixes = some label) ∧
  ((∀ label pre, ¬ ManagedAs zone prefixes full label pre) →
    managedLabel py name zone prefixes = none)

/-- A relative name that reads like an absolute one, of a record that is
managed or that is then taken for a managed one. -/
def Misleading
    (body zone : Str) (prefixes : List Str) (relative : Str) : Prop :=
  InZone body relative ∧
    ∃ label pre, ManagedAs zone prefixes (relative ++ '.' :: zone) label pre ∨
      ManagedAs zone prefixes (relative ++ ['.']) label pre

/-- Every letter case of a name is a spelling of it, if the interpreter lowers
ASCII as everywhere. -/
theorem lower_strip_of_letter_case
    (hascii : ∀ s, (∀ c ∈ s, c.toNat < 128) → py.lower s = s.map asciiLower)
    {s name : Str} (hname : ∀ c ∈ name, isNameChar c = true)
    (hcase : s.map asciiLower = name) :
    py.lower (strip s) = name := by
  have hchar : ∀ c ∈ s, c.toNat < 128 ∧ isSpace c = false := by
    intro c hc
    have hval := isNameChar_toNat (hname _ (hcase ▸ List.mem_map_of_mem hc))
    rw [asciiLower_toNat] at hval
    have hbounds : 33 ≤ c.toNat ∧ c.toNat ≤ 126 := by
      split at hval <;> omega
    exact ⟨by omega, isSpace_of_bounds hbounds.1 hbounds.2⟩
  have hstrip : strip s = s := by
    apply strip_eq_self
    · intro c hc
      exact (hchar c (List.mem_of_mem_head? hc)).2
    · intro c hc
      exact (hchar c (List.mem_of_mem_getLast? hc)).2
  rw [hstrip, hascii s fun c hc => (hchar c hc).1, hcase]

theorem managedLabel_absoluteName
    (hzone : NormalZone body zone) (name : Str) :
    managedLabel py (absoluteName py name zone) zone prefixes =
      managedLabel py name zone prefixes := by
  unfold managedLabel
  rw [absoluteName_idempotent hzone]

/-- Names that are made absolute rightly are recognised. -/
theorem recognised_of_absoluteName_eq
    (hzone : NormalZone body zone)
    (hprefixes : ∀ pre ∈ prefixes, isDnsLabel pre = true)
    {full name : Str} (habsolute : absoluteName py name zone = full) :
    Recognised py zone prefixes full name := by
  have hiff : ∀ label, managedLabel py name zone prefixes = some label ↔
      isDnsLabel label = true ∧ ∃ pre ∈ prefixes, full = serverName label pre zone := by
    intro label
    rw [← managedLabel_absoluteName hzone, habsolute]
    exact managedLabel_eq_some_iff hzone hprefixes (by
      rw [← habsolute, absoluteName_idempotent hzone])
  constructor
  · rintro label pre ⟨hlabel, hpre, rfl⟩
    exact ⟨habsolute, (hiff label).mpr ⟨hlabel, pre, hpre, rfl⟩⟩
  · intro hnone
    cases hcase : managedLabel py name zone prefixes with
    | none => rfl
    | some label =>
        obtain ⟨hlabel, pre, hpre, heq⟩ := (hiff label).mp hcase
        exact absurd ⟨hlabel, hpre, heq⟩ (hnone label pre)

/-- An absolute name in any letter case is made absolute rightly. -/
theorem absoluteName_of_absolute
    (hzone : NormalZone body zone)
    {relative name : Str} (hname : Reports py zone relative .absolute name) :
    absoluteName py name zone = fullName zone relative := by
  have hfull : ∃ full, fullName zone relative = full ++ ['.'] ∧ InZone body full := by
    unfold fullName
    split
    · exact ⟨body, hzone.zone_eq, Or.inl rfl⟩
    · refine ⟨relative ++ '.' :: body, by simp [hzone.zone_eq], Or.inr ?_⟩
      exact List.isSuffixOf_iff_suffix.mpr (List.suffix_append _ _)
  obtain ⟨full, heq, hin⟩ := hfull
  have hname : py.lower (strip name) = full ++ ['.'] := hname.trans heq
  unfold absoluteName
  rw [hname, rstrip_append_self, rstrip_eq_self (hin.last hzone), hzone.zoneBody_eq, heq]
  exact if_pos hin

/-- Where `absolute_name` leads from a relative name. -/
theorem absoluteName_of_relative
    (hzone : NormalZone body zone)
    {relative name : Str} (hname : Reports py zone relative .relative name)
    (hlast : ∀ c ∈ relative.getLast?, c ≠ '.') :
    (InZone body relative → absoluteName py name zone = relative ++ ['.']) ∧
      (¬ InZone body relative → absoluteName py name zone = relative ++ '.' :: zone) := by
  have hname : py.lower (strip name) = relative := hname
  unfold absoluteName
  rw [hname, rstrip_eq_self hlast, hzone.zoneBody_eq]
  constructor
  · intro hin
    exact if_pos hin
  · intro hout
    refine (if_neg hout).trans ?_
    rw [hzone.zone_eq]
    simp

/-- Managed names are longer than the zone and one more character. -/
theorem ManagedAs.length_lt
    {full label pre : Str}
    (h : ManagedAs zone prefixes full label pre) :
    zone.length + 1 < full.length := by
  obtain ⟨hlabel, -, rfl⟩ := h
  have hpos := List.length_pos_of_ne_nil (isDnsLabel_spec hlabel).1
  simp only [serverName, List.length_append, List.length_cons]
  omega

/-- A record is recognised under the name the API reports if and only if this
is no misleading relative name. -/
theorem managed_names_recognised_iff
    {value : Str} {values : List Str} {relative name : Str} {spelling : Spelling}
    (hzone : normalizeZone py value = .ok zone)
    (hprefixes : parsePrefixes py values = .ok prefixes)
    (hrelative : ∀ c ∈ relative.getLast?, c ≠ '.')
    (hname : Reports py zone relative spelling name) :
    Recognised py zone prefixes (fullName zone relative) name ↔
      (spelling = .relative → ¬ Misleading (zoneBody py zone) zone prefixes relative) := by
  obtain ⟨body, hnormal⟩ := normalZone_of_normalizeZone hzone
  have hlabels := (parsePrefixes_spec hprefixes).1
  rw [hnormal.zoneBody_eq]
  cases spelling with
  | absolute =>
      have hgood : Recognised py zone prefixes (fullName zone relative) name :=
        recognised_of_absoluteName_eq hnormal hlabels (absoluteName_of_absolute hnormal hname)
      exact iff_of_true hgood (fun h => by cases h)
  | relative =>
      obtain ⟨hin, hout⟩ := absoluteName_of_relative hnormal hname hrelative
      rw [forall_prop_of_true rfl, Misleading, not_and]
      by_cases hzoneLike : InZone body relative
      · have hread := recognised_of_absoluteName_eq hnormal hlabels (hin hzoneLike)
        have hne : relative ≠ [] := by
          rintro rfl
          rcases hzoneLike with h | h
          · exact hnormal.ne_nil h.symm
          · have hlength := (List.isSuffixOf_iff_suffix.mp h).length_le
            simp at hlength
        rw [fullName, if_neg hne]
        constructor
        · rintro ⟨hmanaged, hnone⟩ - ⟨label, pre, h⟩
          have hno : ∀ label pre,
              ¬ ManagedAs zone prefixes (relative ++ '.' :: zone) label pre := by
            intro label pre h
            have heq := ((hmanaged label pre h).1.symm.trans (hin hzoneLike)).symm.trans
              h.2.2.symm
            have hlength := congrArg List.length heq
            simp [hnormal.zone_eq] at hlength
          rcases h with h | h
          · exact hno label pre h
          · have hsome := (hread.1 label pre h).2
            rw [hnone hno] at hsome
            cases hsome
        · intro hneither
          have hneither := hneither hzoneLike
          constructor
          · intro label pre h
            exact absurd ⟨label, pre, Or.inl h⟩ hneither
          · intro _
            exact hread.2 fun label pre h => hneither ⟨label, pre, Or.inr h⟩
      · refine iff_of_true ?_ (fun h => absurd h hzoneLike)
        have hread : Recognised py zone prefixes (relative ++ '.' :: zone) name :=
          recognised_of_absoluteName_eq hnormal hlabels (hout hzoneLike)
        by_cases hne : relative = []
        · -- The zone itself has no relative name; an empty one is no managed name.
          have hno : ∀ full : Str, full.length ≤ zone.length + 1 →
              ∀ label pre, ¬ ManagedAs zone prefixes full label pre := by
            intro full hle label pre h
            have hlt := h.length_lt
            omega
          subst hne
          constructor
          · intro label pre h
            exact absurd h (hno _ (by simp [fullName]) label pre)
          · intro _
            exact hread.2 (hno _ (by simp))
        · rw [fullName, if_neg hne]
          exact hread

theorem managed_names_recognised_upper :
    Recognised asciiInterpreter "zonne.".toList ["one".toList, "two".toList]
        (fullName "zonne.".toList "server1.two".toList) "Server1.TWO".toList ↔
      (Spelling.relative = .relative →
        ¬ Misleading (zoneBody asciiInterpreter "zonne.".toList) "zonne.".toList
          ["one".toList, "two".toList] "server1.two".toList) :=
  @managed_names_recognised_iff asciiInterpreter _ _ "Zonne".toList ["one,two".toList] _ _ _
    (by decide +kernel) (by decide +kernel) (by simp)
    (lower_strip_of_letter_case (fun _ _ => rfl) (List.all_eq_true.mp rfl) rfl)

/-- In the zone `one.` the relative name `web.one` is taken for a full name. -/
theorem relative_name_misread :
    ¬ ∀ (py : Interpreter) (value zone : Str) (values prefixes : List Str)
        (relative name : Str) (spelling : Spelling),
      normalizeZone py value = .ok zone → parsePrefixes py values = .ok prefixes →
      (∀ c ∈ relative.getLast?, c ≠ '.') → Reports py zone relative spelling name →
      Recognised py zone prefixes (fullName zone relative) name := by
  intro h
  have hmanaged := (h asciiInterpreter "one".toList "one.".toList ["one".toList] ["one".toList]
    "web.one".toList "web.one".toList .relative (by decide +kernel) (by decide +kernel)
    (by simp) (by unfold Reports; decide +kernel)).1 "web".toList "one".toList
    ⟨by decide +kernel, by decide, by decide⟩
  revert hmanaged
  decide +kernel

end Spellings

end Dns
end YdbSnippets

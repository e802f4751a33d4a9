import YdbSnippets.Python.Text
import YdbSnippets.Text.Search
import Mathlib.Tactic.SplitIfs
import Mathlib.Tactic.Set

/-!
# Names in a DNS zone

`register_private_dns.py`: labels, zones, prefixes, the absolute form of a
record name, and which names the script manages.
-/

namespace YdbSnippets
namespace Dns

open Python Text

/-- `RegistrationError`, one constructor for each place that raises it, with
the values its text is built from; the last two stand for the `ValueError` of
`int` and of `chunks`. -/
inductive RegistrationError
  | emptyZone
  | badZoneLabel (value label : Str)
  | noPrefixes
  | badPrefix (pre : Str)
  | repeatedPrefix (pre : Str)
  | badAddress (serverName text : Str)
  | publicAddress (serverName text : Str)
  | badServerName (raw serverId : Str)
  | repeatedServer (label : Str)
  | tooManySlots (label : Str) (slots : Nat) (prefixes : List Str)
  | longName (fqdn : Str)
  | repeatedRecord (fqdn : Str)
  | rpc (detail : Str)
  | operation (text : Str)
  | notInteger (text : Str)
  | badBatchSize
deriving DecidableEq, Repr

section Labels

/-- `[a-z0-9]` -/
def isAlnum (c : Char) : Bool :=
  (97 ≤ c.toNat && c.toNat ≤ 122) || (48 ≤ c.toNat && c.toNat ≤ 57)

/-- `[a-z0-9-]` -/
def isLabelChar (c : Char) : Bool :=
  isAlnum c || c == '-'

/-- `is_dns_label`: at most 63 characters, of which the first and the last are
no dashes. -/
def isDnsLabel (value : Str) : Bool :=
  value.all isLabelChar && decide (value.length ≤ 63) &&
    value.head?.any isAlnum && value.getLast?.any isAlnum

/-- `normalize_zone` -/
def normalizeZone (py : Interpreter) (value : Str) : Except RegistrationError Str :=
  let body := rstrip '.' (py.lower (strip value))
  if body = [] then
    .error .emptyZone
  else
    match (body.splitOn '.').find? (fun label => !isDnsLabel label) with
    | some label => .error (.badZoneLabel value label)
    | none => .ok (body ++ ['.'])

/-- The loop of `parse_prefixes` over the collected parts. -/
def checkPrefixes (seen : List Str) : List Str → Except RegistrationError Unit
  | [] => .ok ()
  | pre :: rest =>
      if !isDnsLabel pre then .error (.badPrefix pre)
      else if pre ∈ seen then .error (.repeatedPrefix pre)
      else checkPrefixes (pre :: seen) rest

/-- `parse_prefixes` -/
def parsePrefixes
    (py : Interpreter) (values : List Str) : Except RegistrationError (List Str) :=
  let raw := values.flatMap (fun value =>
    (value.splitOn ',').map (fun part => py.lower (strip part)))
  let prefixes := raw.filter (fun part => !part.isEmpty)
  if prefixes.isEmpty then
    .error .noPrefixes
  else
    match checkPrefixes [] prefixes with
    | .error e => .error e
    | .ok () => .ok prefixes

/-- The zone without its final dot, as `absolute_name` and `managed_label`
compute it. -/
def zoneBody (py : Interpreter) (zone : Str) : Str :=
  rstrip '.' (py.lower (strip zone))

/-- `absolute_name` -/
def absoluteName (py : Interpreter) (name zone : Str) : Str :=
  let cleaned := rstrip '.' (py.lower (strip name))
  if cleaned = zoneBody py zone ∨ endsWith cleaned ('.' :: zoneBody py zone) = true then
    cleaned ++ ['.']
  else
    cleaned ++ '.' :: zoneBody py zone ++ ['.']

/-- `managed_label` -/
def managedLabel
    (py : Interpreter) (fqdn zone : Str) (prefixes : List Str) : Option Str :=
  let absolute := absoluteName py fqdn zone
  let suffix := '.' :: zoneBody py zone ++ ['.']
  if !endsWith absolute suffix then
    none
  else
    match (absolute.take (absolute.length - suffix.length)).splitOn '.' with
    | [label, pre] =>
        if pre ∉ prefixes ∨ isDnsLabel label = false then none else some label
    | _ => none

/-- The name of a server in the zone: `<label>.<prefix>.<zone>`. -/
def serverName (label pre zone : Str) : Str :=
  label ++ '.' :: pre ++ '.' :: zone

end Labels

/-! ## Characters of names -/

section Characters

/-- The characters of labels and dots. -/
def isNameChar (c : Char) : Bool :=
  isLabelChar c || c == '.'

theorem isNameChar_toNat
    {c : Char}
    (h : isNameChar c = true) :
    (97 ≤ c.toNat ∧ c.toNat ≤ 122) ∨ (48 ≤ c.toNat ∧ c.toNat ≤ 57) ∨
      c.toNat = 45 ∨ c.toNat = 46 := by
  simp only [isNameChar, isLabelChar, isAlnum, Bool.or_eq_true, Bool.and_eq_true,
    decide_eq_true_eq, beq_iff_eq] at h
  rcases h with ((h | h) | h) | h
  · exact Or.inl h
  · exact Or.inr (Or.inl h)
  · subst h
    exact Or.inr (Or.inr (Or.inl rfl))
  · subst h
    exact Or.inr (Or.inr (Or.inr rfl))

theorem isSpace_nameChar
    {c : Char}
    (h : isNameChar c = true) :
    isSpace c = false := by
  have hval := isNameChar_toNat h
  exact isSpace_of_bounds (by omega) (by omega)

theorem isLowered_nameChar
    (py : Interpreter) {c : Char}
    (h : isNameChar c = true) :
    py.isLowered c = true := by
  have hval := isNameChar_toNat h
  apply py.isLowered_ascii <;> omega

theorem isNameChar_of_isLabelChar
    {c : Char}
    (h : isLabelChar c = true) :
    isNameChar c = true := by
  simp [isNameChar, h]

/-- What a label consists of. -/
theorem isDnsLabel_spec
    {label : Str}
    (h : isDnsLabel label = true) :
    label ≠ [] ∧ (∀ c ∈ label, isNameChar c = true) ∧ '.' ∉ label := by
  simp only [isDnsLabel, Bool.and_eq_true, List.all_eq_true] at h
  obtain ⟨⟨⟨hall, _⟩, hhead⟩, _⟩ := h
  refine ⟨?_, fun c hc => isNameChar_of_isLabelChar (hall c hc), ?_⟩
  · rintro rfl
    cases hhead
  · intro hdot
    exact absurd (hall '.' hdot) (by decide)

/-- A zone as `normalize_zone` returns it: a name and a final dot. -/
structure NormalZone (body zone : Str) : Prop where
  zone_eq : zone = body ++ ['.']
  ne_nil : body ≠ []
  chars : ∀ c ∈ body, isNameChar c = true
  last : ∀ c ∈ body.getLast?, c ≠ '.'

theorem normalZone_of_normalizeZone
    {py : Interpreter} {value zone : Str}
    (h : normalizeZone py value = .ok zone) :
    ∃ body, NormalZone body zone := by
  unfold normalizeZone at h
  simp only at h
  set body := rstrip '.' (py.lower (strip value)) with hbody
  split_ifs at h with hempty
  split at h
  · cases h
  · next hfind =>
      cases h
      refine ⟨body, rfl, hempty, ?_, ?_⟩
      · refine forall_mem_of_splitOn (show isNameChar '.' = true from rfl) ?_
        intro part hpart c hc
        have hlabel := List.find?_eq_none.mp hfind part hpart
        exact (isDnsLabel_spec (by simpa using hlabel)).2.1 c hc
      · intro c hc hdot
        have hlast := List.rdropWhile_last_not (· == '.') (py.lower (strip value)) hempty
        have hc' : body.getLast hempty = c := by
          simpa [List.getLast?_eq_getLast_of_ne_nil hempty] using hc
        have hsame : (List.rdropWhile (· == '.') (py.lower (strip value))).getLast hempty =
            c := hc'
        rw [hsame, hdot] at hlast
        exact hlast rfl

/-- A text of name characters is already stripped and lowered. -/
theorem lower_strip_name
    (py : Interpreter) {s : Str}
    (h : ∀ c ∈ s, isNameChar c = true) :
    py.lower (strip s) = s := by
  have hstrip : strip s = s := by
    apply strip_eq_self
    · intro c hc
      exact isSpace_nameChar (h c (List.mem_of_mem_head? hc))
    · intro c hc
      exact isSpace_nameChar (h c (List.mem_of_mem_getLast? hc))
  rw [hstrip]
  exact py.lower_of_isLowered s (fun c hc => isLowered_nameChar py (h c hc))

/-- A text that does not end in a dot is not changed by stripping dots. -/
theorem rstrip_eq_self
    {s : Str}
    (h : ∀ c ∈ s.getLast?, c ≠ '.') :
    rstrip '.' s = s := by
  cases s using List.reverseRecOn with
  | nil => rfl
  | append_singleton init c =>
      have hc : c ≠ '.' := h c (by simp)
      exact rstrip_append_of_ne init hc

variable {py : Interpreter} {body zone : Str} {prefixes : List Str}

theorem NormalZone.zone_chars
    (hzone : NormalZone body zone) :
    ∀ c ∈ zone, isNameChar c = true := by
  intro c hc
  rw [hzone.zone_eq] at hc
  rcases List.mem_append.mp hc with hc | hc
  · exact hzone.chars c hc
  · rw [List.mem_singleton] at hc
    subst hc
    decide

theorem NormalZone.zoneBody_eq
    (hzone : NormalZone body zone) :
    zoneBody py zone = body := by
  unfold zoneBody
  rw [lower_strip_name py hzone.zone_chars, hzone.zone_eq, rstrip_append_self,
    rstrip_eq_self hzone.last]

/-- A text that ends like the zone, without the final dot. -/
def InZone (body name : Str) : Prop :=
  name = body ∨ endsWith name ('.' :: body) = true

theorem InZone.last
    (hzone : NormalZone body zone)
    {name : Str} (h : InZone body name) :
    ∀ c ∈ name.getLast?, c ≠ '.' := by
  rcases h with rfl | h
  · exact hzone.last
  · obtain ⟨init, rfl⟩ := List.isSuffixOf_iff_suffix.mp h
    have hlast : (init ++ '.' :: body).getLast? = body.getLast? := by
      rw [List.getLast?_append, List.getLast?_cons_of_ne_nil hzone.ne_nil]
      simp [List.getLast?_eq_some_getLast hzone.ne_nil]
    rw [hlast]
    exact hzone.last

/-- An absolute name in lower case stays what it is. -/
theorem absoluteName_of_lowered
    (hzone : NormalZone body zone)
    {name : Str} (hname : InZone body name)
    (hlower : ∀ c ∈ name, py.isLowered c = true)
    (hhead : ∀ c ∈ (name ++ ['.']).head?, isSpace c = false) :
    absoluteName py (name ++ ['.']) zone = name ++ ['.'] := by
  have hstrip : strip (name ++ ['.']) = name ++ ['.'] := by
    apply strip_eq_self hhead
    intro c hc
    simp only [List.getLast?_append, List.getLast?_singleton, Option.some_or, Option.mem_def,
      Option.some.injEq] at hc
    subst hc
    decide
  have hdot : py.isLowered '.' = true := isLowered_nameChar py (by decide)
  have hlowered : py.lower (name ++ ['.']) = name ++ ['.'] := by
    apply py.lower_of_isLowered
    intro c hc
    rcases List.mem_append.mp hc with hc | hc
    · exact hlower c hc
    · rw [List.mem_singleton] at hc
      rw [hc]
      exact hdot
  unfold absoluteName
  rw [hstrip, hlowered, rstrip_append_self, rstrip_eq_self (hname.last hzone),
    hzone.zoneBody_eq]
  exact if_pos hname

/-- What `absolute_name` returns. -/
theorem absoluteName_spec
    (hzone : NormalZone body zone) (name : Str) :
    ∃ absolute, absoluteName py name zone = absolute ++ ['.'] ∧
      InZone body absolute ∧
      (∀ c ∈ absolute, py.isLowered c = true) ∧
      (∀ c ∈ (absolute ++ ['.']).head?, isSpace c = false) := by
  set cleaned := rstrip '.' (py.lower (strip name)) with hcleaned
  have hlower : ∀ c ∈ cleaned, py.isLowered c = true := by
    intro c hc
    exact py.isLowered_of_mem _ c ( rstrip_prefix '.' _ |>.subset hc)
  have hhead : ∀ c ∈ cleaned.head?, isSpace c = false := by
    intro c hc
    obtain ⟨rest, hrest⟩ := rstrip_prefix '.' (py.lower (strip name))
    rw [← hcleaned] at hrest
    cases hs : strip name with
    | nil =>
        rw [hs, py.lower_of_isLowered [] (by simp)] at hrest
        rw [(List.append_eq_nil_iff.mp hrest).1] at hc
        cases hc
    | cons d tail =>
        have hd : isSpace d = false := head_strip (s := name) (by rw [hs]; rfl)
        apply py.isSpace_head_lower d tail hd
        rw [← hs, ← hrest, List.head?_append]
        simp [Option.mem_def.mp hc]
  have hdotHead : ∀ (text : Str) c, c ∈ (cleaned ++ '.' :: text).head? → isSpace c = false := by
    intro text c hc
    rw [List.head?_append] at hc
    cases hcase : cleaned.head? with
    | none =>
        rw [hcase] at hc
        cases hc
        decide
    | some d =>
        rw [hcase] at hc
        cases hc
        exact hhead c hcase
  unfold absoluteName
  simp only [← hcleaned, hzone.zoneBody_eq]
  split
  · next hin => exact ⟨cleaned, rfl, hin, hlower, hdotHead []⟩
  · refine ⟨cleaned ++ '.' :: body, by simp, Or.inr ?_, ?_, ?_⟩
    · exact List.isSuffixOf_iff_suffix.mpr (List.suffix_append _ _)
    · intro c hc
      rcases List.mem_append.mp hc with hc | hc
      · exact hlower c hc
      · rcases List.mem_cons.mp hc with rfl | hc
        · exact isLowered_nameChar py (by decide)
        · exact isLowered_nameChar py (hzone.chars c hc)
    · intro c hc
      rw [List.append_assoc] at hc
      exact hdotHead _ c hc

/-- Making a name absolute twice changes nothing. -/
theorem absoluteName_idempotent
    (hzone : NormalZone body zone) (name : Str) :
    absoluteName py (absoluteName py name zone) zone = absoluteName py name zone := by
  obtain ⟨absolute, heq, hin, hlower, hhead⟩ := @absoluteName_spec py _ _ hzone name
  rw [heq]
  exact absoluteName_of_lowered hzone hin hlower hhead

end Characters

section Managed

variable {py : Interpreter} {body zone : Str} {prefixes : List Str}

/-- The names of servers are absolute. -/
theorem absoluteName_serverName
    (hzone : NormalZone body zone) {label pre : Str}
    (hlabel : isDnsLabel label = true) (hpre : isDnsLabel pre = true) :
    absoluteName py (serverName label pre zone) zone = serverName label pre zone := by
  obtain ⟨hne, hlabelChars, _⟩ := isDnsLabel_spec hlabel
  obtain ⟨_, hpreChars, _⟩ := isDnsLabel_spec hpre
  have hchars : ∀ c ∈ label ++ '.' :: pre ++ '.' :: body, isNameChar c = true := by
    intro c hc
    simp only [List.append_assoc, List.cons_append, List.mem_append, List.mem_cons] at hc
    rcases hc with hc | rfl | hc | rfl | hc
    · exact hlabelChars c hc
    · decide
    · exact hpreChars c hc
    · decide
    · exact hzone.chars c hc
  have heq : serverName label pre zone = (label ++ '.' :: pre ++ '.' :: body) ++ ['.'] := by
    simp [serverName, hzone.zone_eq]
  rw [heq]
  apply absoluteName_of_lowered hzone
  · exact Or.inr (List.isSuffixOf_iff_suffix.mpr (List.suffix_append _ _))
  · exact fun c hc => isLowered_nameChar py (hchars c hc)
  · intro c hc
    obtain ⟨d, rest, rfl⟩ := List.exists_cons_of_ne_nil hne
    simp only [List.cons_append, List.head?_cons, Option.mem_def, Option.some.injEq] at hc
    exact isSpace_nameChar (hlabelChars c (by simp [hc]))

/-- The names the script manages are exactly the names of servers. -/
theorem managedLabel_eq_some_iff
    (hzone : NormalZone body zone)
    (hprefixes : ∀ pre ∈ prefixes, isDnsLabel pre = true)
    {name label : Str}
    (habsolute : absoluteName py name zone = name) :
    managedLabel py name zone prefixes = some label ↔
      isDnsLabel label = true ∧
        ∃ pre ∈ prefixes, name = serverName label pre zone := by
  have hsuffix : '.' :: zoneBody py zone ++ ['.'] = '.' :: zone := by
    rw [hzone.zoneBody_eq, hzone.zone_eq]
    rfl
  unfold managedLabel
  rw [habsolute, hsuffix]
  constructor
  · intro h
    simp only at h
    split_ifs at h with hends
    have hends : endsWith name ('.' :: zone) = true := by simpa using hends
    obtain ⟨relative, rfl⟩ := List.isSuffixOf_iff_suffix.mp hends
    rw [List.length_append, Nat.add_sub_cancel, List.take_left] at h
    split at h
    · next label' pre hsplit =>
        split_ifs at h with hbad
        cases h
        simp only [not_or, not_not, Bool.not_eq_false] at hbad
        refine ⟨hbad.2, pre, hbad.1, ?_⟩
        have hrelative : relative = label ++ '.' :: pre := by
          have hjoin : ['.'].intercalate (relative.splitOn '.') = relative :=
            List.intercalate_splitOn '.'
          rw [← hjoin, hsplit]
          simp [List.intercalate]
        rw [hrelative]
        rfl
    · cases h
  · rintro ⟨hlabel, pre, hmem, rfl⟩
    have hlabelDot := (isDnsLabel_spec hlabel).2.2
    have hpreDot := (isDnsLabel_spec (hprefixes pre hmem)).2.2
    have heq : serverName label pre zone = (label ++ '.' :: pre) ++ '.' :: zone := rfl
    have hends : endsWith (serverName label pre zone) ('.' :: zone) = true := by
      rw [heq]
      exact List.isSuffixOf_iff_suffix.mpr (List.suffix_append _ _)
    have hsplit : (label ++ '.' :: pre).splitOn '.' = [label, pre] := by
      rw [List.splitOn_append_cons_self_of_not_mem hlabelDot, List.splitOn_eq_singleton hpreDot]
    simp only [hends, Bool.not_true, Bool.false_eq_true, if_false]
    rw [heq, List.length_append, Nat.add_sub_cancel, List.take_left, hsplit]
    simp [hmem, hlabel]

/-- Normalising a normalised zone changes nothing. -/
theorem normalizeZone_idempotent
    {value : Str}
    (h : normalizeZone py value = .ok zone) :
    normalizeZone py zone = .ok zone := by
  obtain ⟨body', hzone⟩ := normalZone_of_normalizeZone h
  have hbody : rstrip '.' (py.lower (strip value)) = body' := by
    unfold normalizeZone at h
    simp only at h
    split_ifs at h
    split at h
    · cases h
    · cases h
      exact List.append_cancel_right hzone.zone_eq
  have hzoneBody : rstrip '.' (py.lower (strip zone)) = body' := hzone.zoneBody_eq
  have hlabels : (body'.splitOn '.').find? (fun label => !isDnsLabel label) = none := by
    unfold normalizeZone at h
    simp only [hbody] at h
    split_ifs at h
    split at h
    · cases h
    · next hfind => exact hfind
  unfold normalizeZone
  simp only [hzoneBody, hzone.ne_nil, if_false, hlabels, ← hzone.zone_eq]

/-- Accepted prefixes are labels, and no two are the same. -/
theorem checkPrefixes_spec
    {seen parts : List Str}
    (h : checkPrefixes seen parts = .ok ()) :
    (∀ pre ∈ parts, isDnsLabel pre = true ∧ pre ∉ seen) ∧ parts.Nodup := by
  induction parts generalizing seen with
  | nil => simp
  | cons pre rest ih =>
      simp only [checkPrefixes] at h
      split_ifs at h with hlabel hseen
      obtain ⟨hrest, hnodup⟩ := ih h
      refine ⟨?_, ?_⟩
      · intro other hother
        rcases List.mem_cons.mp hother with rfl | hother
        · exact ⟨by simpa using hlabel, hseen⟩
        · obtain ⟨hgood, hnew⟩ := hrest other hother
          exact ⟨hgood, fun hmem => hnew (List.mem_cons_of_mem _ hmem)⟩
      · refine List.nodup_cons.mpr ⟨?_, hnodup⟩
        intro hmem
        exact (hrest pre hmem).2 List.mem_cons_self

theorem parsePrefixes_spec
    {values : List Str}
    (h : parsePrefixes py values = .ok prefixes) :
    (∀ pre ∈ prefixes, isDnsLabel pre = true) ∧ prefixes.Nodup := by
  unfold parsePrefixes at h
  simp only at h
  split_ifs at h
  split at h
  · cases h
  · next hcheck =>
      cases h
      obtain ⟨hlabels, hnodup⟩ := checkPrefixes_spec hcheck
      exact ⟨fun pre hmem => (hlabels pre hmem).1, hnodup⟩

end Managed

end Dns
end YdbSnippets

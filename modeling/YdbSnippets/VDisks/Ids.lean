import YdbSnippets.Lists.Matching
import YdbSnippets.Python.Dict
import YdbSnippets.Python.Hex
import YdbSnippets.Python.Numbers
import YdbSnippets.Python.Words
import YdbSnippets.Text.Search
import Mathlib.Tactic.IntervalCases

/-!
# VDisk ids

`vdisk_compact.py`: the textual forms of a VDisk id, and the VDisk of the
inventory an id stands for.
-/

namespace YdbSnippets
namespace VDisks

open Python Text Matching

section Texts

/-- The coordinates of a VDisk in the inventory. -/
structure Coordinates where
  groupId : Int
  groupGen : Int
  failRealm : Int
  failDomain : Int
  vdiskIdx : Int
deriving DecidableEq, Repr

/-- What `parse_vdisk_id` returns.  An id with `_` has no generation. -/
structure ParsedId where
  groupId : Nat
  groupGen : Option Nat
  failRealm : Nat
  failDomain : Nat
  vdiskIdx : Nat
deriving DecidableEq, Repr

/-- `int(text, 16)` of a text that `[0-9a-fA-F]+` matches. -/
def hexNumber (s : Str) : Option Nat :=
  readNumeral 16 hexValue s

/-- `%08x` -/
def hex08 (n : Int) : Str :=
  if n < 0 then '-' :: padded 16 7 n.natAbs else padded 16 8 n.natAbs

/-- `$` also matches before a line feed at the end. -/
def dropFinalNewline (text : Str) : Str :=
  if text.getLast? = some '\n' then text.dropLast else text

/-- The text between two brackets. -/
def enclosed (opening closing : Char) : Str → Option Str
  | [] => none
  | c :: rest =>
      if c = opening ∧ rest.getLast? = some closing then some rest.dropLast else none

/-- The generation field of a bracket form: `_` or a number. -/
def generation (py : Interpreter) (s : Str) : Option (Option Nat) :=
  if s = ['_'] then some none else (decimalNumber py s).map some

/-- The five fields, the group id read by `group` and the generation by `gen`. -/
def readFields
    (py : Interpreter) (group : Str → Option Nat) (gen : Str → Option (Option Nat)) :
    List Str → Option ParsedId
  | [groupId, groupGen, failRealm, failDomain, vdiskIdx] => do
      return {
        groupId := ← group groupId
        groupGen := ← gen groupGen
        failRealm := ← decimalNumber py failRealm
        failDomain := ← decimalNumber py failDomain
        vdiskIdx := ← decimalNumber py vdiskIdx }
  | _ => none

/-- `RE_VDISK_BRACKET`, and the numbers it finds. -/
def parseBracket (py : Interpreter) (text : Str) : Option ParsedId := do
  let body ← enclosed '[' ']' text
  readFields py hexNumber (generation py) (body.splitOn ':')

/-- `RE_VDISK_PAREN`, and the numbers it finds. -/
def parseParen (py : Interpreter) (text : Str) : Option ParsedId := do
  let body ← enclosed '(' ')' text
  readFields py (decimalNumber py) (fun s => (decimalNumber py s).map some)
    (body.splitOn '-')

/-- `parse_vdisk_id`, or `none` for its `ValueError`. -/
def parseVDiskId (py : Interpreter) (text : Str) : Option ParsedId :=
  let text := dropFinalNewline text
  (parseBracket py text).or (parseParen py text)

/-- `format_vdisk_id` -/
def formatVDiskId (c : Coordinates) : Str :=
  '[' :: [':'].intercalate
    [hex08 c.groupId, printInt c.groupGen, printInt c.failRealm, printInt c.failDomain,
      printInt c.vdiskIdx] ++ [']']

/-- `[%08x:_:%u:%u:%u]` -/
def formatShort (groupId failRealm failDomain vdiskIdx : Int) : Str :=
  '[' :: [':'].intercalate
    [hex08 groupId, ['_'], printInt failRealm, printInt failDomain, printInt vdiskIdx] ++ [']']

/-- `(%d-%u-%u-%u-%u)` -/
def formatParen (c : Coordinates) : Str :=
  '(' :: ['-'].intercalate
    [printInt c.groupId, printInt c.groupGen, printInt c.failRealm, printInt c.failDomain,
      printInt c.vdiskIdx] ++ [')']

end Texts

section Inventory

/-- A VDisk of the inventory.  Its id is the text of its coordinates. -/
structure VDisk where
  coordinates : Coordinates
  nodeId : Int
  pdiskId : Int
  vslotId : Int
  poolName : Str
  vdiskId : Str
  vdiskId_eq : vdiskId = formatVDiskId coordinates
deriving DecidableEq

/-- The key of a VDisk without its generation. -/
def VDisk.short (v : VDisk) : Str :=
  formatShort v.coordinates.groupId v.coordinates.failRealm v.coordinates.failDomain
    v.coordinates.vdiskIdx

/-- The indexes `by_full` and `by_short`. -/
structure Indexes where
  byFull : Dict Str VDisk
  byShort : Dict Str VDisk

/-- One turn of the loop of `build_vdisk_indexes`. -/
def Indexes.add (indexes : Indexes) (v : VDisk) : Indexes where
  byShort :=
    match indexes.byShort.get? v.short with
    | none => indexes.byShort.set v.short v
    | some prev =>
        if prev.coordinates.groupGen ≤ v.coordinates.groupGen then
          indexes.byShort.set v.short v
        else indexes.byShort
  byFull := (indexes.byFull.set v.vdiskId v).set (formatParen v.coordinates) v

/-- `build_vdisk_indexes` -/
def buildVDiskIndexes (vdisks : List VDisk) : Indexes :=
  vdisks.foldl Indexes.add { byFull := Dict.empty, byShort := Dict.empty }

/-- The exceptions of `resolve_vdisk_ids`. -/
inductive ResolveError
  | unsupportedFormat (vdiskId : Str)
  | notFound (vdiskId : Str)
deriving DecidableEq, Repr

/-- The lookup under the text that the inventory would print. -/
def Indexes.lookupParsed (indexes : Indexes) (p : ParsedId) : Option VDisk :=
  match p.groupGen with
  | none =>
      indexes.byShort.get? (formatShort p.groupId p.failRealm p.failDomain p.vdiskIdx)
  | some groupGen =>
      indexes.byFull.get? (formatVDiskId {
        groupId := p.groupId
        groupGen := groupGen
        failRealm := p.failRealm
        failDomain := p.failDomain
        vdiskIdx := p.vdiskIdx })

/-- The loop body of `resolve_vdisk_ids`. -/
def Indexes.resolve (py : Interpreter) (indexes : Indexes) (vdiskId : Str) :
    Except ResolveError VDisk :=
  match parseVDiskId py vdiskId with
  | none => .error (.unsupportedFormat vdiskId)
  | some p =>
      let found := (indexes.byFull.get? vdiskId).or (indexes.byShort.get? vdiskId)
      match found.or (indexes.lookupParsed p) with
      | none => .error (.notFound vdiskId)
      | some v => .ok v

/-- `resolve_vdisk_ids` -/
def resolveVDiskIds (py : Interpreter) (vdiskIds : List Str) (vdisks : List VDisk) :
    Except ResolveError (List VDisk) :=
  (vdiskIds.flatMap words).mapM (Indexes.resolve py (buildVDiskIndexes vdisks))

/-- The id stands for these coordinates, of whatever generation if it has none. -/
structure ParsedId.Designates (p : ParsedId) (c : Coordinates) : Prop where
  groupId : c.groupId = p.groupId
  groupGen : ∀ groupGen, p.groupGen = some groupGen → c.groupGen = groupGen
  failRealm : c.failRealm = p.failRealm
  failDomain : c.failDomain = p.failDomain
  vdiskIdx : c.vdiskIdx = p.vdiskIdx

end Inventory

/-! ## Reading what was printed -/

section Printed

variable {py : Interpreter}

/-- A printed hexadecimal number reads as itself, and a negative one not at all. -/
theorem hexNumber_hex08_iff
    {n : Int} {m : Nat} :
    hexNumber (hex08 n) = some m ↔ n = m := by
  unfold hex08 hexNumber
  split
  · next hneg =>
      constructor
      · intro h
        obtain ⟨d, hd⟩ := exists_value_of_readNumeral h '-' List.mem_cons_self
        cases hd
      · intro h
        omega
  · next hpos =>
      rw [readNumeral_padded (by omega) hexValue_digitChar, Option.some.injEq]
      omega

theorem decimalNumber_printInt_iff
    {n : Int} {m : Nat} :
    decimalNumber py (printInt n) = some m ↔ n = m := by
  rw [decimalNumber_printInt]
  split
  · next hneg =>
      constructor
      · intro h
        cases h
      · intro h
        omega
  · next hpos =>
      rw [Option.some.injEq]
      omega

theorem not_mem_printInt
    {n : Int} {c : Char}
    (hminus : c ≠ '-') (hdigit : c.isDigit = false) :
    c ∉ printInt n := by
  intro hmem
  rcases mem_printInt hmem with h | h
  · exact hminus h
  · rw [h] at hdigit
    cases hdigit

/-- The generation of a printed VDisk is no underscore. -/
theorem generation_printInt_iff
    {n : Int} {gen : Option Nat} :
    generation py (printInt n) = some gen ↔ ∃ m : Nat, gen = some m ∧ n = m := by
  have hne : printInt n ≠ ['_'] := by
    intro h
    refine not_mem_printInt (n := n) (c := '_') (by simp) rfl ?_
    rw [h]
    exact List.mem_singleton_self _
  unfold generation
  rw [if_neg hne, Option.map_eq_some_iff]
  constructor
  · rintro ⟨m, hm, rfl⟩
    exact ⟨m, rfl, decimalNumber_printInt_iff.mp hm⟩
  · rintro ⟨m, rfl, hm⟩
    exact ⟨m, decimalNumber_printInt_iff.mpr hm, rfl⟩

theorem colon_not_mem_hex08 (n : Int) : ':' ∉ hex08 n := by
  have hpadded : ∀ width, ':' ∉ padded 16 width n.natAbs := by
    intro width hmem
    have hread := readNumeral_padded (by omega) hexValue_digitChar width n.natAbs
    obtain ⟨d, hd⟩ := exists_value_of_readNumeral hread ':' hmem
    cases hd
  unfold hex08
  split
  · intro hmem
    rcases List.mem_cons.mp hmem with h | h
    · cases h
    · exact hpadded 7 h
  · exact hpadded 8

@[simp] theorem enclosed_self
    (opening closing : Char) (body : Str) :
    enclosed opening closing (opening :: body ++ [closing]) = some body := by
  simp [enclosed]

/-- The text in brackets is the text around its body. -/
theorem eq_of_enclosed
    {opening closing : Char} {text body : Str}
    (h : enclosed opening closing text = some body) :
    text = opening :: body ++ [closing] := by
  cases text with
  | nil => cases h
  | cons c rest =>
      simp only [enclosed] at h
      split at h
      · next hcond =>
          obtain ⟨rfl, hlast⟩ := hcond
          cases h
          obtain ⟨init, rfl⟩ := List.getLast?_eq_some_iff.mp hlast
          simp
      · cases h

theorem dropFinalNewline_append
    {closing : Char} (text : Str)
    (h : closing ≠ '\n') :
    dropFinalNewline (text ++ [closing]) = text ++ [closing] := by
  unfold dropFinalNewline
  rw [if_neg (by simpa using h)]

/-- A text in square brackets is read field by field. -/
theorem parseVDiskId_bracket
    {fields : List Str}
    (hne : fields ≠ [])
    (hcolon : ∀ field ∈ fields, ':' ∉ field) :
    parseVDiskId py ('[' :: [':'].intercalate fields ++ [']']) =
      readFields py hexNumber (generation py) fields := by
  unfold parseVDiskId
  rw [dropFinalNewline_append _ (by simp)]
  have hparen : parseParen py ('[' :: [':'].intercalate fields ++ [']']) = none := by
    simp [parseParen, enclosed]
  simp only [hparen, Option.or_none]
  unfold parseBracket
  rw [enclosed_self, Option.bind_eq_bind, Option.bind_some,
    List.splitOn_intercalate _ hcolon hne]

/-- A text in parentheses is read between its minus signs. -/
theorem parseVDiskId_paren
    {fields : List Str}
    (hne : fields ≠ []) :
    parseVDiskId py ('(' :: ['-'].intercalate fields ++ [')']) =
      readFields py (decimalNumber py) (fun s => (decimalNumber py s).map some)
        (fields.flatMap (List.splitOn '-')) := by
  unfold parseVDiskId
  rw [dropFinalNewline_append _ (by simp)]
  have hbracket : parseBracket py ('(' :: ['-'].intercalate fields ++ [')']) = none := by
    simp [parseBracket, enclosed]
  simp only [hbracket, Option.none_or]
  unfold parseParen
  rw [enclosed_self, Option.bind_eq_bind, Option.bind_some,
    splitOn_intercalate_eq_flatMap _ hne]

theorem readFields_eq_some_iff
    {group : Str → Option Nat} {gen : Str → Option (Option Nat)}
    {groupId groupGen failRealm failDomain vdiskIdx : Str} {p : ParsedId} :
    readFields py group gen [groupId, groupGen, failRealm, failDomain, vdiskIdx] = some p ↔
      group groupId = some p.groupId ∧ gen groupGen = some p.groupGen ∧
        decimalNumber py failRealm = some p.failRealm ∧
        decimalNumber py failDomain = some p.failDomain ∧
        decimalNumber py vdiskIdx = some p.vdiskIdx := by
  obtain ⟨g, gg, r, d, i⟩ := p
  simp only [readFields, Option.bind_eq_bind, Option.bind_eq_some_iff, Option.pure_def,
    Option.some.injEq, ParsedId.mk.injEq]
  constructor
  · rintro ⟨g', hg, gg', hgg, r', hr, d', hd, i', hi, rfl, rfl, rfl, rfl, rfl⟩
    exact ⟨hg, hgg, hr, hd, hi⟩
  · rintro ⟨hg, hgg, hr, hd, hi⟩
    exact ⟨g, hg, gg, hgg, r, hr, d, hd, i, hi, rfl, rfl, rfl, rfl, rfl⟩

/-- Nothing but five fields is read. -/
theorem length_of_readFields
    {group : Str → Option Nat} {gen : Str → Option (Option Nat)}
    {fields : List Str} {p : ParsedId}
    (h : readFields py group gen fields = some p) :
    fields.length = 5 := by
  unfold readFields at h
  split at h
  · rfl
  · cases h

/-- The id of a VDisk reads as its coordinates. -/
theorem parse_formatVDiskId_iff
    {c : Coordinates} {p : ParsedId} :
    parseVDiskId py (formatVDiskId c) = some p ↔ p.groupGen ≠ none ∧ p.Designates c := by
  unfold formatVDiskId
  rw [parseVDiskId_bracket (List.cons_ne_nil _ _), readFields_eq_some_iff,
    hexNumber_hex08_iff, generation_printInt_iff, decimalNumber_printInt_iff,
    decimalNumber_printInt_iff, decimalNumber_printInt_iff]
  · constructor
    · rintro ⟨hgroup, ⟨m, hm, hgen⟩, hrealm, hdomain, hidx⟩
      rw [hm]
      refine ⟨Option.some_ne_none m, hgroup, ?_, hrealm, hdomain, hidx⟩
      intro gen heq
      rw [hm, Option.some.injEq] at heq
      rw [hgen, heq]
    · rintro ⟨hne, h⟩
      obtain ⟨m, hm⟩ := Option.ne_none_iff_exists'.mp hne
      exact ⟨h.groupId, ⟨m, hm, h.groupGen m hm⟩, h.failRealm, h.failDomain, h.vdiskIdx⟩
  · intro field hfield
    simp only [List.mem_cons, List.not_mem_nil, or_false] at hfield
    rcases hfield with rfl | rfl | rfl | rfl | rfl
    · exact colon_not_mem_hex08 _
    · exact not_mem_printInt (by simp) rfl
    · exact not_mem_printInt (by simp) rfl
    · exact not_mem_printInt (by simp) rfl
    · exact not_mem_printInt (by simp) rfl

/-- The key without a generation reads as the coordinates without it. -/
theorem parse_formatShort_iff
    {c : Coordinates} {p : ParsedId} :
    parseVDiskId py (formatShort c.groupId c.failRealm c.failDomain c.vdiskIdx) = some p ↔
      p.groupGen = none ∧ p.Designates c := by
  unfold formatShort
  rw [parseVDiskId_bracket (List.cons_ne_nil _ _), readFields_eq_some_iff,
    hexNumber_hex08_iff, decimalNumber_printInt_iff,
    decimalNumber_printInt_iff, decimalNumber_printInt_iff]
  · have hgen : generation py ['_'] = some p.groupGen ↔ p.groupGen = none := by
      rw [generation, if_pos rfl, Option.some.injEq, eq_comm]
    rw [hgen]
    constructor
    · rintro ⟨hgroup, hnone, hrealm, hdomain, hidx⟩
      refine ⟨hnone, hgroup, ?_, hrealm, hdomain, hidx⟩
      intro gen heq
      rw [hnone] at heq
      cases heq
    · rintro ⟨hnone, h⟩
      exact ⟨h.groupId, hnone, h.failRealm, h.failDomain, h.vdiskIdx⟩
  · intro field hfield
    simp only [List.mem_cons, List.not_mem_nil, or_false] at hfield
    rcases hfield with rfl | rfl | rfl | rfl | rfl
    · exact colon_not_mem_hex08 _
    · simp
    · exact not_mem_printInt (by simp) rfl
    · exact not_mem_printInt (by simp) rfl
    · exact not_mem_printInt (by simp) rfl

/-- A printed integer has a part for its sign. -/
theorem length_splitOn_printInt (n : Int) :
    ((printInt n).splitOn '-').length = if n < 0 then 2 else 1 := by
  have hdigits : (Nat.toDigits 10 n.natAbs).splitOn '-' = [Nat.toDigits 10 n.natAbs] := by
    refine List.splitOn_eq_singleton ?_
    intro hmem
    cases isDigit_of_mem_toDigits_ten hmem
  unfold printInt
  split
  · have hsplit := List.splitOn_append_cons_self (a := '-') [] (Nat.toDigits 10 n.natAbs)
    rw [List.nil_append] at hsplit
    rw [hsplit, hdigits]
    rfl
  · rw [hdigits]
    rfl

theorem splitOn_printInt
    {n : Int}
    (h : ¬ n < 0) :
    (printInt n).splitOn '-' = [printInt n] := by
  refine List.splitOn_eq_singleton ?_
  intro hmem
  unfold printInt at hmem
  rw [if_neg h] at hmem
  cases isDigit_of_mem_toDigits_ten hmem

/-- A key in parentheses reads as the coordinates it was printed from. -/
theorem designates_of_parse_formatParen
    {c : Coordinates} {p : ParsedId}
    (h : parseVDiskId py (formatParen c) = some p) :
    p.groupGen ≠ none ∧ p.Designates c := by
  unfold formatParen at h
  rw [parseVDiskId_paren (List.cons_ne_nil _ _)] at h
  have hlength := length_of_readFields h
  simp only [List.flatMap_cons, List.flatMap_nil, List.append_nil, List.length_append,
    length_splitOn_printInt] at hlength
  -- a negative coordinate would add a field
  have hnonneg : ¬ c.groupId < 0 ∧ ¬ c.groupGen < 0 ∧ ¬ c.failRealm < 0 ∧
      ¬ c.failDomain < 0 ∧ ¬ c.vdiskIdx < 0 := by
    split_ifs at hlength <;> omega
  obtain ⟨hgroup, hgen, hrealm, hdomain, hidx⟩ := hnonneg
  simp only [List.flatMap_cons, List.flatMap_nil, List.append_nil, splitOn_printInt hgroup,
    splitOn_printInt hgen, splitOn_printInt hrealm, splitOn_printInt hdomain,
    splitOn_printInt hidx, List.cons_append, List.nil_append] at h
  rw [readFields_eq_some_iff, decimalNumber_printInt_iff, decimalNumber_printInt_iff,
    decimalNumber_printInt_iff, decimalNumber_printInt_iff, Option.map_eq_some_iff] at h
  obtain ⟨hgroup, ⟨m, hm, heq⟩, hrealm, hdomain, hidx⟩ := h
  rw [← heq]
  refine ⟨Option.some_ne_none m, hgroup, ?_, hrealm, hdomain, hidx⟩
  intro gen hgen
  rw [← heq, Option.some.injEq] at hgen
  rw [decimalNumber_printInt_iff.mp hm, hgen]

end Printed

section Words

variable {py : Interpreter}

theorem noSpace_of_hexNumber
    {s : Str} {n : Nat}
    (h : hexNumber s = some n) :
    ∀ c ∈ s, isSpace c = false := by
  intro c hc
  obtain ⟨d, hd⟩ := exists_value_of_readNumeral h c hc
  exact isSpace_of_isHexDigit (hexValue_spec hd).1

theorem noSpace_of_decimalNumber
    {s : Str} {n : Nat}
    (h : decimalNumber py s = some n) :
    ∀ c ∈ s, isSpace c = false := by
  intro c hc
  obtain ⟨d, hd⟩ := exists_value_of_readNumeral h c hc
  exact isSpace_of_decimalValue py hd

theorem noSpace_of_generation
    {s : Str} {gen : Option Nat}
    (h : generation py s = some gen) :
    ∀ c ∈ s, isSpace c = false := by
  unfold generation at h
  split at h
  · next heq =>
      rw [heq]
      simp [isSpace]
  · obtain ⟨n, hn, -⟩ := Option.map_eq_some_iff.mp h
    exact noSpace_of_decimalNumber hn

/-- No field that is read holds a space. -/
theorem noSpace_of_readFields
    {group : Str → Option Nat} {gen : Str → Option (Option Nat)}
    {fields : List Str} {p : ParsedId}
    (hgroup : ∀ {s n}, group s = some n → ∀ c ∈ s, isSpace c = false)
    (hgen : ∀ {s n}, gen s = some n → ∀ c ∈ s, isSpace c = false)
    (h : readFields py group gen fields = some p) :
    ∀ field ∈ fields, ∀ c ∈ field, isSpace c = false := by
  match fields, length_of_readFields h with
  | [groupId, groupGen, failRealm, failDomain, vdiskIdx], _ =>
      obtain ⟨hg, hgg, hr, hd, hi⟩ := readFields_eq_some_iff.mp h
      intro field hfield
      simp only [List.mem_cons, List.not_mem_nil, or_false] at hfield
      rcases hfield with rfl | rfl | rfl | rfl | rfl
      · exact hgroup hg
      · exact hgen hgg
      · exact noSpace_of_decimalNumber hr
      · exact noSpace_of_decimalNumber hd
      · exact noSpace_of_decimalNumber hi

/-- An accepted text is brackets around a body without spaces. -/
theorem shape_of_parse
    {text : Str} {p : ParsedId}
    (h : parseVDiskId py text = some p) :
    ∃ init closing, dropFinalNewline text = init ++ [closing] ∧ closing ≠ '\n' ∧
      ∀ c ∈ init ++ [closing], isSpace c = false := by
  have hbody : ∀ {opening closing sep : Char} {body : Str},
      isSpace opening = false → isSpace closing = false → isSpace sep = false →
      (∀ part ∈ body.splitOn sep, ∀ c ∈ part, isSpace c = false) →
      ∀ c ∈ opening :: body ++ [closing], isSpace c = false := by
    intro opening closing sep body ho hc hs hparts c hmem
    have hall := forall_mem_of_splitOn (p := fun c => isSpace c = false) hs hparts
    simp only [List.cons_append, List.mem_cons, List.mem_append, List.not_mem_nil,
      or_false] at hmem
    rcases hmem with rfl | hmem | rfl
    · exact ho
    · exact hall c hmem
    · exact hc
  unfold parseVDiskId at h
  rcases Option.or_eq_some_iff.mp h with h | ⟨-, h⟩
  · obtain ⟨body, hbrackets, hread⟩ := Option.bind_eq_some_iff.mp h
    refine ⟨'[' :: body, ']', eq_of_enclosed hbrackets, by simp, ?_⟩
    exact hbody rfl rfl rfl
      (noSpace_of_readFields noSpace_of_hexNumber noSpace_of_generation hread)
  · obtain ⟨body, hbrackets, hread⟩ := Option.bind_eq_some_iff.mp h
    refine ⟨'(' :: body, ')', eq_of_enclosed hbrackets, by simp, ?_⟩
    refine hbody rfl rfl rfl (noSpace_of_readFields noSpace_of_decimalNumber ?_ hread)
    intro s n hn
    obtain ⟨m, hm, -⟩ := Option.map_eq_some_iff.mp hn
    exact noSpace_of_decimalNumber hm

/-- An accepted text is one word, and that word is accepted as the same id. -/
theorem words_of_parse
    {text : Str} {p : ParsedId}
    (h : parseVDiskId py text = some p) :
    ∃ vdiskId, words text = [vdiskId] ∧ parseVDiskId py vdiskId = some p := by
  obtain ⟨init, closing, hcore, hclosing, hspace⟩ := shape_of_parse h
  refine ⟨init ++ [closing], ?_, ?_⟩
  · have hword : words (init ++ [closing]) = [init ++ [closing]] :=
      words_of_noSpace (by simp) hspace
    unfold dropFinalNewline at hcore
    split at hcore
    · next hlast =>
        obtain ⟨body, rfl⟩ := List.getLast?_eq_some_iff.mp hlast
        rw [List.dropLast_concat] at hcore
        rw [hcore, words_append_space _ [] (by simp [isSpace]), hword]
        rfl
    · rw [hcore]
      exact hword
  · unfold parseVDiskId at h ⊢
    rw [dropFinalNewline_append _ hclosing]
    rw [hcore] at h
    exact h

end Words

/-! ## The indexes -/

section Indexes

variable {py : Interpreter} {vdisks : List VDisk} {indexes : Indexes}

/-- What the indexes say of the VDisks they were built from. -/
structure Indexes.Sound (indexes : Indexes) (vdisks : List VDisk) : Prop where
  /-- The full index leads to a VDisk under its own id. -/
  full : ∀ k v, indexes.byFull.get? k = some v →
    v ∈ vdisks ∧ (k = formatVDiskId v.coordinates ∨ k = formatParen v.coordinates)
  fullHas : ∀ v ∈ vdisks, ∃ w, indexes.byFull.get? (formatVDiskId v.coordinates) = some w
  /-- The short index leads to the newest VDisk with that key. -/
  short : ∀ k v, indexes.byShort.get? k = some v →
    v ∈ vdisks ∧ k = v.short ∧
      ∀ w ∈ vdisks, w.short = k → w.coordinates.groupGen ≤ v.coordinates.groupGen
  shortHas : ∀ v ∈ vdisks, ∃ w, indexes.byShort.get? v.short = some w

theorem sound_empty :
    Indexes.Sound { byFull := Dict.empty, byShort := Dict.empty } [] := by
  constructor
  · intro k v h
    cases h
  · intro v h
    cases h
  · intro k v h
    cases h
  · intro v h
    cases h

/-- What the short index holds after one more VDisk. -/
theorem get?_byShort_add
    (indexes : Indexes) (v : VDisk) (k : Str) :
    ((indexes.add v).byShort.get? k = indexes.byShort.get? k ∧
        (k = v.short → ∃ prev, indexes.byShort.get? k = some prev ∧
          v.coordinates.groupGen < prev.coordinates.groupGen)) ∨
      (k = v.short ∧ (indexes.add v).byShort.get? k = some v ∧
        ∀ prev, indexes.byShort.get? k = some prev →
          prev.coordinates.groupGen ≤ v.coordinates.groupGen) := by
  unfold Indexes.add
  by_cases hk : k = v.short
  · subst hk
    cases hprev : indexes.byShort.get? v.short with
    | none =>
        refine Or.inr ⟨rfl, by simp, ?_⟩
        intro prev h
        cases h
    | some prev =>
        by_cases hle : prev.coordinates.groupGen ≤ v.coordinates.groupGen
        · refine Or.inr ⟨rfl, by simp [hle], ?_⟩
          intro prev' h
          cases h
          exact hle
        · refine Or.inl ⟨by simp [hprev, hle], fun _ => ⟨prev, rfl, ?_⟩⟩
          omega
  · refine Or.inl ⟨?_, fun h => absurd h hk⟩
    cases hprev : indexes.byShort.get? v.short with
    | none => simp [hk]
    | some prev =>
        by_cases hle : prev.coordinates.groupGen ≤ v.coordinates.groupGen
        · simp [hle, hk]
        · simp [hle]

theorem Indexes.Sound.add
    (h : indexes.Sound vdisks) (v : VDisk) :
    (indexes.add v).Sound (vdisks ++ [v]) := by
  have hself : v ∈ vdisks ++ [v] := by simp
  have hmono : ∀ {w}, w ∈ vdisks → w ∈ vdisks ++ [v] := fun hw => List.mem_append_left _ hw
  have hfull : ∀ k, (indexes.add v).byFull.get? k =
      if k = formatParen v.coordinates then some v
      else if k = v.vdiskId then some v else indexes.byFull.get? k := by
    intro k
    simp [Indexes.add]
  constructor
  · intro k w hget
    rw [hfull] at hget
    split at hget
    · next hk =>
        cases hget
        exact ⟨hself, Or.inr hk⟩
    · split at hget
      · next hk =>
          cases hget
          exact ⟨hself, Or.inl (hk.trans v.vdiskId_eq)⟩
      · obtain ⟨hmem, hkey⟩ := h.full k w hget
        exact ⟨hmono hmem, hkey⟩
  · intro w hw
    rw [hfull]
    split
    · exact ⟨v, rfl⟩
    · split
      · exact ⟨v, rfl⟩
      · next hne =>
          rcases List.mem_append.mp hw with hw | hw
          · exact h.fullHas w hw
          · rw [List.mem_singleton.mp hw, v.vdiskId_eq] at hne
            exact absurd rfl hne
  · intro k w hget
    rcases get?_byShort_add indexes v k with ⟨hsame, hnewer⟩ | ⟨rfl, hnew, holder⟩
    · rw [hsame] at hget
      obtain ⟨hmem, hkey, hmax⟩ := h.short k w hget
      refine ⟨hmono hmem, hkey, ?_⟩
      intro x hx hxk
      rcases List.mem_append.mp hx with hx | hx
      · exact hmax x hx hxk
      · rw [List.mem_singleton.mp hx] at hxk ⊢
        obtain ⟨prev, hprev, hlt⟩ := hnewer hxk.symm
        rw [hget] at hprev
        cases hprev
        exact hlt.le
    · rw [hnew] at hget
      cases hget
      refine ⟨hself, rfl, ?_⟩
      intro x hx hxk
      rcases List.mem_append.mp hx with hx | hx
      · obtain ⟨prev, hprev⟩ := h.shortHas x hx
        rw [hxk] at hprev
        exact ((h.short _ _ hprev).2.2 x hx hxk).trans (holder prev hprev)
      · rw [List.mem_singleton.mp hx]
  · intro w hw
    rcases get?_byShort_add indexes v w.short with ⟨hsame, hnewer⟩ | ⟨_, hnew, _⟩
    · rw [hsame]
      rcases List.mem_append.mp hw with hw | hw
      · exact h.shortHas w hw
      · rw [List.mem_singleton.mp hw] at hnewer ⊢
        obtain ⟨prev, hprev, _⟩ := hnewer rfl
        exact ⟨prev, hprev⟩
    · exact ⟨v, hnew⟩

theorem sound_buildVDiskIndexes (vdisks : List VDisk) :
    (buildVDiskIndexes vdisks).Sound vdisks := by
  induction vdisks using List.reverseRecOn with
  | nil => exact sound_empty
  | append_singleton init v ih =>
      unfold buildVDiskIndexes
      rw [List.foldl_append]
      exact ih.add v

end Indexes

/-! ## Resolution by meaning -/

section Resolution

variable {py : Interpreter} {vdisks : List VDisk} {indexes : Indexes} {p : ParsedId}

/-- The VDisk of the inventory that an id stands for; without a generation, a
newest one. -/
structure Stands (vdisks : List VDisk) (p : ParsedId) (v : VDisk) : Prop where
  mem : v ∈ vdisks
  designates : p.Designates v.coordinates
  newest : p.groupGen = none →
    ∀ w ∈ vdisks, p.Designates w.coordinates → w.coordinates.groupGen ≤ v.coordinates.groupGen

/-- All VDisks an id designates have the same key without a generation. -/
theorem short_eq_of_designates
    {v : VDisk}
    (h : p.Designates v.coordinates) :
    v.short = formatShort p.groupId p.failRealm p.failDomain p.vdiskIdx := by
  unfold VDisk.short
  rw [h.groupId, h.failRealm, h.failDomain, h.vdiskIdx]

theorem stands_of_full
    (py : Interpreter)
    (hsound : indexes.Sound vdisks)
    {k : Str} {v : VDisk}
    (hparse : parseVDiskId py k = some p)
    (hget : indexes.byFull.get? k = some v) :
    Stands vdisks p v := by
  obtain ⟨hmem, hkey⟩ := hsound.full k v hget
  have h : p.groupGen ≠ none ∧ p.Designates v.coordinates := by
    rcases hkey with rfl | rfl
    · exact parse_formatVDiskId_iff.mp hparse
    · exact designates_of_parse_formatParen hparse
  exact ⟨hmem, h.2, fun hnone => absurd hnone h.1⟩

theorem stands_of_short
    (py : Interpreter)
    (hsound : indexes.Sound vdisks)
    {k : Str} {v : VDisk}
    (hparse : parseVDiskId py k = some p)
    (hget : indexes.byShort.get? k = some v) :
    Stands vdisks p v := by
  obtain ⟨hmem, rfl, hmax⟩ := hsound.short k v hget
  obtain ⟨-, hdesignates⟩ := parse_formatShort_iff.mp hparse
  refine ⟨hmem, hdesignates, ?_⟩
  intro _ w hw hwd
  refine hmax w hw ?_
  rw [short_eq_of_designates hwd, short_eq_of_designates hdesignates]

/-- The lookup under the normal text finds what the id stands for. -/
theorem stands_of_lookupParsed
    (py : Interpreter)
    (hsound : indexes.Sound vdisks)
    {v : VDisk}
    (hget : indexes.lookupParsed p = some v) :
    Stands vdisks p v := by
  unfold Indexes.lookupParsed at hget
  split at hget
  · next hnone =>
      refine stands_of_short py hsound ?_ hget
      refine (parse_formatShort_iff (c := ⟨p.groupId, 0, p.failRealm, p.failDomain,
        p.vdiskIdx⟩)).mpr ⟨hnone, rfl, ?_, rfl, rfl, rfl⟩
      intro gen hgen
      rw [hnone] at hgen
      cases hgen
  · next gen hgen =>
      refine stands_of_full py hsound ?_ hget
      refine parse_formatVDiskId_iff.mpr ⟨by simp [hgen], rfl, ?_, rfl, rfl, rfl⟩
      intro gen' hgen'
      rw [hgen, Option.some.injEq] at hgen'
      rw [hgen']

/-- If the inventory has a VDisk with the coordinates of the id, the lookup
under the normal text finds one. -/
theorem exists_lookupParsed
    (hsound : indexes.Sound vdisks)
    {v : VDisk}
    (hmem : v ∈ vdisks) (h : p.Designates v.coordinates) :
    ∃ w, indexes.lookupParsed p = some w := by
  unfold Indexes.lookupParsed
  split
  · rw [← short_eq_of_designates h]
    exact hsound.shortHas v hmem
  · next gen hgen =>
      have hcoords : v.coordinates =
          { groupId := p.groupId, groupGen := gen, failRealm := p.failRealm,
            failDomain := p.failDomain, vdiskIdx := p.vdiskIdx } := by
        rw [← h.groupId, ← h.groupGen gen hgen, ← h.failRealm, ← h.failDomain, ← h.vdiskIdx]
      rw [← hcoords]
      exact hsound.fullHas v hmem

theorem resolve_spec
    (hsound : indexes.Sound vdisks)
    {vdiskId : Str}
    (hparse : parseVDiskId py vdiskId = some p) :
    (∀ v, indexes.resolve py vdiskId = .ok v → Stands vdisks p v) ∧
      ((∃ e, indexes.resolve py vdiskId = .error e) ↔
        ∀ v ∈ vdisks, ¬ p.Designates v.coordinates) := by
  unfold Indexes.resolve
  rw [hparse]
  simp only
  have hfound : ∀ v, ((indexes.byFull.get? vdiskId).or (indexes.byShort.get? vdiskId)).or
      (indexes.lookupParsed p) = some v → Stands vdisks p v := by
    intro v hget
    rcases Option.or_eq_some_iff.mp hget with hget | ⟨-, hget⟩
    · rcases Option.or_eq_some_iff.mp hget with hget | ⟨-, hget⟩
      · exact stands_of_full py hsound hparse hget
      · exact stands_of_short py hsound hparse hget
    · exact stands_of_lookupParsed py hsound hget
  cases hget : ((indexes.byFull.get? vdiskId).or (indexes.byShort.get? vdiskId)).or
      (indexes.lookupParsed p) with
  | none =>
      refine ⟨fun v h => ?_, iff_of_true ⟨_, rfl⟩ ?_⟩
      · cases h
      intro v hmem hdesignates
      obtain ⟨w, hw⟩ := exists_lookupParsed hsound hmem hdesignates
      rw [Option.or_eq_none_iff, hw] at hget
      cases hget.2
  | some v =>
      have hstands := hfound v hget
      refine ⟨fun w h => Except.ok.inj h ▸ hstands, iff_of_false ?_ ?_⟩
      · rintro ⟨e, h⟩
        cases h
      · exact fun hnone => hnone v hstands.mem hstands.designates

/-- The words of accepted texts are as many accepted ids. -/
theorem words_of_accepted
    {texts : List Str} {ps : List ParsedId}
    (h : List.Forall₂ (fun text p => parseVDiskId py text = some p) texts ps) :
    List.Forall₂ (fun vdiskId p => parseVDiskId py vdiskId = some p)
      (texts.flatMap words) ps := by
  induction h with
  | nil => exact List.Forall₂.nil
  | cons hparse _ ih =>
      obtain ⟨vdiskId, hwords, hid⟩ := words_of_parse hparse
      rw [List.flatMap_cons, hwords]
      exact List.Forall₂.cons hid ih

/-- Accepted texts resolve to the VDisks their ids stand for, and they fail if
and only if the inventory has none for one of them. -/
theorem resolveVDiskIds_spec
    (vdisks : List VDisk) {texts : List Str} {ps : List ParsedId}
    (h : List.Forall₂ (fun text p => parseVDiskId py text = some p) texts ps) :
    (∀ found, resolveVDiskIds py texts vdisks = .ok found →
        List.Forall₂ (Stands vdisks) ps found) ∧
      ((∃ e, resolveVDiskIds py texts vdisks = .error e) ↔
        ∃ p ∈ ps, ∀ v ∈ vdisks, ¬ p.Designates v.coordinates) := by
  have hids := words_of_accepted h
  have hsound := sound_buildVDiskIndexes vdisks
  unfold resolveVDiskIds
  generalize texts.flatMap words = ids at hids
  clear h
  constructor
  · intro found hfound
    rw [mapM_ok_iff] at hfound
    induction hids generalizing found with
    | nil =>
        cases hfound
        exact List.Forall₂.nil
    | cons hparse _ ih =>
        cases hfound with
        | cons hresolve hrest =>
            exact List.Forall₂.cons ((resolve_spec hsound hparse).1 _ hresolve)
              (ih _ hrest)
  · rw [mapM_error_iff]
    induction hids with
    | nil => simp
    | cons hparse _ ih =>
        rw [List.exists_mem_cons_iff, List.exists_mem_cons_iff, ih,
          (resolve_spec hsound hparse).2]

/-- Two VDisks that one id stands for have the same coordinates. -/
theorem Stands.coordinates_eq
    {v v' : VDisk}
    (h : Stands vdisks p v) (h' : Stands vdisks p v') :
    v.coordinates = v'.coordinates := by
  have hgen : v.coordinates.groupGen = v'.coordinates.groupGen := by
    cases hp : p.groupGen with
    | none =>
        exact le_antisymm (h'.newest hp v h.mem h.designates)
          (h.newest hp v' h'.mem h'.designates)
    | some gen =>
        rw [h.designates.groupGen gen hp, h'.designates.groupGen gen hp]
  have hd := h.designates
  have hd' := h'.designates
  have hgroup := hd.groupId.trans hd'.groupId.symm
  have hrealm := hd.failRealm.trans hd'.failRealm.symm
  have hdomain := hd.failDomain.trans hd'.failDomain.symm
  have hidx := hd.vdiskIdx.trans hd'.vdiskIdx.symm
  cases hv : v.coordinates with
  | mk =>
      cases hv' : v'.coordinates with
      | mk =>
          rw [hv, hv'] at hgroup hgen hrealm hdomain hidx
          rw [Coordinates.mk.injEq]
          exact ⟨hgroup, hgen, hrealm, hdomain, hidx⟩

/-- Ids resolve by their meaning: accepted texts resolve to the VDisks with
their coordinates, and fail if and only if the inventory has none for one of
them; a printed id is read back; and two spellings of one id resolve to the same
coordinates. -/
theorem ids_resolve_by_meaning
    (py : Interpreter)
    (vdisks : List VDisk)
    (texts : List Str)
    (ps : List ParsedId)
    (h : List.Forall₂ (fun text p => parseVDiskId py text = some p) texts ps) :
    (∀ found, resolveVDiskIds py texts vdisks = .ok found →
        List.Forall₂ (Stands vdisks) ps found) ∧
      ((∃ e, resolveVDiskIds py texts vdisks = .error e) ↔
        ∃ p ∈ ps, ∀ v ∈ vdisks, ¬ p.Designates v.coordinates) ∧
      (∀ groupId groupGen failRealm failDomain vdiskIdx : Nat,
        parseVDiskId py
            (formatVDiskId ⟨groupId, groupGen, failRealm, failDomain, vdiskIdx⟩) =
          some ⟨groupId, some groupGen, failRealm, failDomain, vdiskIdx⟩) ∧
      (∀ texts' found found',
        List.Forall₂ (fun text p => parseVDiskId py text = some p) texts' ps →
        resolveVDiskIds py texts vdisks = .ok found →
        resolveVDiskIds py texts' vdisks = .ok found' →
        found.map VDisk.coordinates = found'.map VDisk.coordinates) := by
  obtain ⟨hfound, herror⟩ := resolveVDiskIds_spec vdisks h
  refine ⟨hfound, herror, ?_, ?_⟩
  · intro groupId groupGen failRealm failDomain vdiskIdx
    refine parse_formatVDiskId_iff.mpr ⟨Option.some_ne_none groupGen, rfl, ?_, rfl, rfl, rfl⟩
    intro gen hgen
    rw [Option.some.injEq] at hgen
    rw [hgen]
  · intro texts' found found' h' hok hok'
    have hstands := hfound found hok
    have hstands' := (resolveVDiskIds_spec vdisks h').1 found' hok'
    clear hfound herror h h' hok hok'
    induction hstands generalizing found' with
    | nil =>
        cases hstands'
        rfl
    | cons hv _ ih =>
        cases hstands' with
        | cons hv' hrest =>
            rw [List.map_cons, List.map_cons, hv.coordinates_eq hv', ih _ hrest]

/-- An inventory of one VDisk. -/
def oneVDisk : VDisk where
  coordinates := ⟨171, 2, 0, 3, 0⟩
  nodeId := 1
  pdiskId := 1
  vslotId := 1
  poolName := []
  vdiskId := formatVDiskId ⟨171, 2, 0, 3, 0⟩
  vdiskId_eq := rfl

/-- Two spellings of the id of that VDisk. -/
theorem ids_resolve_by_meaning_one :
    (∃ e, resolveVDiskIds asciiInterpreter
        ["[0aB:_:0:03:0]".toList, "(171-2-0-3-00)".toList] [oneVDisk] = .error e) ↔
      ∃ p ∈ [⟨171, none, 0, 3, 0⟩, ⟨171, some 2, 0, 3, 0⟩],
        ∀ v ∈ [oneVDisk], ¬ ParsedId.Designates p v.coordinates :=
  (ids_resolve_by_meaning asciiInterpreter [oneVDisk]
    ["[0aB:_:0:03:0]".toList, "(171-2-0-3-00)".toList]
    [⟨171, none, 0, 3, 0⟩, ⟨171, some 2, 0, 3, 0⟩]
    (List.Forall₂.cons (by decide +kernel)
      (List.Forall₂.cons (by decide +kernel) List.Forall₂.nil))).2.1

end Resolution

end VDisks
end YdbSnippets

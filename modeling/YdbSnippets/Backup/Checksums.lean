import YdbSnippets.Backup.Store

/-!
# Checksum files and sibling keys

A checksum file that was given a new sum parses to that sum and keeps what is
behind it, and the objects of different tables have different keys.
-/

namespace YdbSnippets
namespace Backup

open Python Effects StoreProgram

section Checksums

theorem decodeUtf8_encodeUtf8 (text : Str) :
    decodeUtf8 (encodeUtf8 text) = some text := by
  unfold decodeUtf8 encodeUtf8
  simp

theorem encodeUtf8_of_decodeUtf8
    {data : ByteArray} {text : Str}
    (h : decodeUtf8 data = some text) :
    encodeUtf8 text = data := by
  unfold decodeUtf8 at h
  obtain ⟨chars, hchars, rfl⟩ := Option.map_eq_some_iff.mp h
  have hsome : data.utf8Decode?.isSome := by
    rw [hchars]
    rfl
  have hdata := ByteArray.utf8Encode_get_utf8Decode? (h := hsome)
  simpa [encodeUtf8, hchars] using hdata

theorem encodeUtf8_append (text rest : Str) :
    encodeUtf8 (text ++ rest) = encodeUtf8 text ++ encodeUtf8 rest := by
  unfold encodeUtf8
  rw [String.ofList_append, String.toByteArray_append]

theorem isLowerHexDigit_hexDigit :
    ∀ n : Fin 16, isLowerHexDigit (hexDigit n) = true := by
  decide

theorem mem_hexOfBytes
    {bytes : List UInt8} {c : Char}
    (h : c ∈ hexOfBytes bytes) :
    ∃ n : Fin 16, c = hexDigit n := by
  obtain ⟨b, _, hc⟩ := List.mem_flatMap.mp h
  have hlt := b.toNat_lt
  simp only [List.mem_cons, List.not_mem_nil, or_false] at hc
  rcases hc with rfl | rfl
  · exact ⟨⟨b.toNat / 16, by omega⟩, rfl⟩
  · exact ⟨⟨b.toNat % 16, by omega⟩, rfl⟩

theorem length_hexOfBytes (bytes : List UInt8) :
    (hexOfBytes bytes).length = 2 * bytes.length := by
  induction bytes with
  | nil => rfl
  | cons b bytes ih =>
      have hcons : hexOfBytes (b :: bytes) =
          hexDigit (b.toNat / 16) :: hexDigit (b.toNat % 16) :: hexOfBytes bytes := rfl
      rw [hcons, List.length_cons, List.length_cons, ih, List.length_cons]
      omega

/-- The text starts with white space, or it is empty. -/
def StartsBlank (rest : Str) : Prop :=
  ∀ c ∈ rest.head?, isSpace c = true

theorem takeWhile_word
    {word rest : Str} (hword : ∀ c ∈ word, isSpace c = false) (hrest : StartsBlank rest) :
    (word ++ rest).takeWhile (fun c => !isSpace c) = word := by
  rw [List.takeWhile_append_of_pos (by simpa using hword)]
  cases rest with
  | nil => simp
  | cons c rest => simp [hrest c rfl]

/-- The first part of a text that starts with a word. -/
theorem firstPart_append
    {word rest : Str} (hword : ∀ c ∈ word, isSpace c = false) (hne : word ≠ [])
    (hrest : StartsBlank rest) :
    firstPart (word ++ rest) = some word := by
  have hdrop : (word ++ rest).dropWhile isSpace = word ++ rest := by
    obtain ⟨c, word, rfl⟩ := List.exists_cons_of_ne_nil hne
    exact List.dropWhile_cons_of_neg (by simp [hword c List.mem_cons_self])
  unfold firstPart
  rw [hdrop, takeWhile_word hword hrest]
  exact if_neg (by simpa using hne)

theorem isHexDigit_of_isLowerHexDigit
    {c : Char} (h : isLowerHexDigit c = true) :
    isHexDigit c = true := by
  unfold isHexDigit
  unfold isLowerHexDigit at h
  rw [h, Bool.true_or]

theorem asciiLower_of_isLowerHexDigit
    {c : Char} (h : isLowerHexDigit c = true) :
    asciiLower c = c := by
  simp only [isLowerHexDigit, Bool.or_eq_true, Bool.and_eq_true, decide_eq_true_eq] at h
  refine if_neg ?_
  rcases h with hdigit | hlower
  · have hbounds := isDigit_iff_toNat.mp hdigit
    omega
  · have hlower : 97 ≤ c.toNat ∧ c.toNat ≤ 102 := hlower
    omega

/-- A digest: 64 digits in lower case. -/
structure IsDigest (digest : Str) : Prop where
  length : digest.length = 64
  digits : ∀ c ∈ digest, isLowerHexDigit c = true

variable {digest : Str}

theorem IsDigest.isHexDigit
    (h : IsDigest digest) :
    ∀ c ∈ digest, isHexDigit c = true := by
  intro c hc
  exact isHexDigit_of_isLowerHexDigit (h.digits c hc)

theorem IsDigest.ne_nil
    (h : IsDigest digest) :
    digest ≠ [] := by
  rintro rfl
  cases h.length

/-- The sum is read back, whatever comes behind it. -/
theorem IsDigest.parseChecksumFile_eq
    (h : IsDigest digest) {rest : Str} (hrest : StartsBlank rest) :
    parseChecksumFile (encodeUtf8 (digest ++ rest)) = some digest := by
  have hspace : ∀ c ∈ digest, isSpace c = false := by
    intro c hc
    exact isSpace_of_isHexDigit (h.isHexDigit c hc)
  have hlower : digest.map asciiLower = digest :=
    (List.map_congr_left fun c hc => asciiLower_of_isLowerHexDigit (h.digits c hc)).trans
      (List.map_id _)
  unfold parseChecksumFile
  rw [decodeUtf8_encodeUtf8]
  simp only [Option.bind_eq_bind, Option.bind_some, firstPart_append hspace h.ne_nil hrest]
  rw [if_pos ⟨h.length, List.all_eq_true.mpr h.isHexDigit⟩, hlower]

/-- What is put behind the new sum: what the file has behind its own, or the name of the
scheme if it has none. -/
def checksumTail (old : ByteArray) : Str :=
  let text := (decodeUtf8 old).getD []
  let head := text.takeWhile fun c => !isSpace c
  if !head.isEmpty && head.all isHexDigit then text.dropWhile fun c => !isSpace c
  else ' ' :: schemeName

theorem startsBlank_checksumTail (old : ByteArray) :
    StartsBlank (checksumTail old) := by
  unfold checksumTail
  generalize (decodeUtf8 old).getD [] = text
  dsimp only
  intro c hc
  split at hc
  · have hnot := List.head?_dropWhile_not (fun c => !isSpace c) text
    rw [Option.mem_def.mp hc] at hnot
    simpa using hnot
  · cases hc
    rfl

/-- The new sum is put in front of it. -/
theorem IsDigest.replaceChecksum_eq
    (h : IsDigest digest) (old : ByteArray) :
    replaceChecksum old digest = .ok (encodeUtf8 (digest ++ checksumTail old)) := by
  have haccepted : ¬ (digest.length ≠ 64 ∨ (!digest.all isLowerHexDigit) = true) := by
    rintro (hlength | hdigits)
    · exact hlength h.length
    · rw [List.all_eq_true.mpr h.digits] at hdigits
      cases hdigits
  unfold replaceChecksum checksumTail
  rw [if_neg haccepted]
  generalize (decodeUtf8 old).getD [] = text
  dsimp only
  split
  · -- what is kept starts where the old sum ended
    have hsplit := @List.takeWhile_append_dropWhile _ (fun c => !isSpace c) text
    have hdrop := @List.drop_left _ (text.takeWhile (fun c => !isSpace c))
      (text.dropWhile (fun c => !isSpace c))
    rw [hsplit] at hdrop
    rw [hdrop]
  · rfl

/-- A file that starts with a sum keeps all that comes behind it. -/
theorem checksumTail_of_decodeUtf8
    {old : ByteArray} {sum rest : Str} (hold : decodeUtf8 old = some (sum ++ rest))
    (hne : sum ≠ []) (hsum : ∀ c ∈ sum, isHexDigit c = true) (hrest : StartsBlank rest) :
    checksumTail old = rest := by
  have hspace : ∀ c ∈ sum, isSpace c = false := by
    intro c hc
    exact isSpace_of_isHexDigit (hsum c hc)
  have hhead := takeWhile_word hspace hrest
  have hsplit := @List.takeWhile_append_dropWhile _ (fun c => !isSpace c) (sum ++ rest)
  rw [hhead] at hsplit
  unfold checksumTail
  rw [hold, Option.getD_some]
  dsimp only
  rw [hhead, List.append_cancel_left hsplit]
  exact if_pos (by simp [hne, List.all_eq_true.mpr hsum])

/-- A file that was given a sum keeps what was put behind it. -/
theorem IsDigest.checksumTail_eq
    (h : IsDigest digest) {rest : Str} (hrest : StartsBlank rest) :
    checksumTail (encodeUtf8 (digest ++ rest)) = rest :=
  checksumTail_of_decodeUtf8 (decodeUtf8_encodeUtf8 _) h.ne_nil h.isHexDigit hrest

theorem isDigest_sha256Hex
    (sha256 : ByteArray → Vector UInt8 32) (data : ByteArray) :
    IsDigest (sha256Hex sha256 data) where
  length := by
    unfold sha256Hex
    rw [length_hexOfBytes]
    simp
  digits c hc := by
    obtain ⟨n, rfl⟩ := mem_hexOfBytes hc
    exact isLowerHexDigit_hexDigit n

/-- A checksum file keeps everything but its sum: the new sum is read back. -/
theorem replaceChecksum_spec
    (sha256 : ByteArray → Vector UInt8 32) (old data : ByteArray) :
    ∃ new, replaceChecksum old (sha256Hex sha256 data) = .ok new ∧
      parseChecksumFile new = some (sha256Hex sha256 data) := by
  have hdigest := isDigest_sha256Hex sha256 data
  exact ⟨_, hdigest.replaceChecksum_eq old,
    hdigest.parseChecksumFile_eq (startsBlank_checksumTail old)⟩

/-- The new file always parses, so the old one is kept and the new one written. -/
theorem writeChecksum_eq
    {sha256 : ByteArray → Vector UInt8 32} {old new body : ByteArray}
    (checksumKey backup : Str) (dryRun : Bool)
    (hnew : replaceChecksum old (sha256Hex sha256 body) = .ok new) :
    writeChecksum sha256 checksumKey backup old body dryRun =
      (saveOriginal checksumKey backup dryRun).bind fun _ =>
        if dryRun then Program.pure () else putObject checksumKey new := by
  obtain ⟨new', hnew', hparse⟩ := replaceChecksum_spec sha256 old body
  obtain rfl := Except.ok.inj (hnew.symm.trans hnew')
  unfold writeChecksum
  rw [hnew]
  simp only [Program.ofExcept, Program.bind_def, Program.bind_pure_left, hparse, ne_eq, not_true,
    if_false]
  rfl

/-- Of two sums that are written one after the other, the last one is left. -/
theorem replaceChecksum_twice
    (h : IsDigest digest) {first : Str} (hfirst : IsDigest first) (old : ByteArray) :
    (replaceChecksum old first >>= fun new => replaceChecksum new digest) =
      replaceChecksum old digest := by
  rw [hfirst.replaceChecksum_eq, h.replaceChecksum_eq old]
  change replaceChecksum (encodeUtf8 (first ++ checksumTail old)) digest = _
  rw [h.replaceChecksum_eq, hfirst.checksumTail_eq (startsBlank_checksumTail old)]

/-- So it is with any number of sums. -/
theorem foldlM_replaceChecksum
    (h : IsDigest digest) {earlier : List Str} (hearlier : ∀ d ∈ earlier, IsDigest d)
    (old : ByteArray) :
    (earlier ++ [digest]).foldlM replaceChecksum old = replaceChecksum old digest := by
  induction earlier generalizing old with
  | nil =>
      rw [List.nil_append, List.foldlM_cons, h.replaceChecksum_eq]
      rfl
  | cons d earlier ih =>
      have hrest := ih fun d hd => hearlier d (List.mem_cons_of_mem _ hd)
      rw [List.cons_append, List.foldlM_cons]
      simp only [hrest]
      exact replaceChecksum_twice h (hearlier d List.mem_cons_self) old

/-- Checksum files are rewritten faithfully.  The new sum is read back, whatever the old
file held.  If the old file starts with a sum, the bytes behind it are kept.  Sums that
were written before leave no trace. -/
theorem replaceChecksum_faithful
    (old : ByteArray)
    (digest : Str)
    (hdigest : IsDigest digest) :
    (∃ new, replaceChecksum old digest = .ok new ∧ parseChecksumFile new = some digest) ∧
    (∀ sum rest,
      decodeUtf8 old = some (sum ++ rest) →
      sum ≠ [] →
      (∀ c ∈ sum, isHexDigit c = true) →
      StartsBlank rest →
      old = encodeUtf8 sum ++ encodeUtf8 rest ∧
        replaceChecksum old digest = .ok (encodeUtf8 digest ++ encodeUtf8 rest)) ∧
    (∀ first, IsDigest first →
      (replaceChecksum old first >>= fun new => replaceChecksum new digest) =
        replaceChecksum old digest) ∧
    ∀ earlier, (∀ d ∈ earlier, IsDigest d) →
      (earlier ++ [digest]).foldlM replaceChecksum old = replaceChecksum old digest := by
  refine ⟨?_, ?_, ?_, ?_⟩
  · exact ⟨_, hdigest.replaceChecksum_eq old,
      hdigest.parseChecksumFile_eq (startsBlank_checksumTail old)⟩
  · intro sum rest hold hne hsum hrest
    constructor
    · rw [← encodeUtf8_append, encodeUtf8_of_decodeUtf8 hold]
    · rw [hdigest.replaceChecksum_eq, checksumTail_of_decodeUtf8 hold hne hsum hrest,
        encodeUtf8_append]
  · intro first hfirst
    exact replaceChecksum_twice hdigest hfirst old
  · intro earlier hearlier
    exact foldlM_replaceChecksum hdigest hearlier old

/-- The file of the scheme tests: an old sum, two blanks and the name of the scheme. -/
theorem replaceChecksum_faithful_two_blanks :
    replaceChecksum (encodeUtf8 (List.replicate 64 '0' ++ "  scheme.pb\n".toList))
        (List.replicate 64 'a') =
      .ok (encodeUtf8 (List.replicate 64 'a') ++ encodeUtf8 "  scheme.pb\n".toList) := by
  have hdigest : IsDigest (List.replicate 64 'a') := by
    refine ⟨List.length_replicate, fun c hc => ?_⟩
    rw [List.eq_of_mem_replicate hc]
    rfl
  have hfaithful := replaceChecksum_faithful
    (encodeUtf8 (List.replicate 64 '0' ++ "  scheme.pb\n".toList)) (List.replicate 64 'a') hdigest
  refine (hfaithful.2.1 (List.replicate 64 '0') "  scheme.pb\n".toList
    (decodeUtf8_encodeUtf8 _) (by simp) ?_ ?_).2
  · intro c hc
    rw [List.eq_of_mem_replicate hc]
    rfl
  · rintro c ⟨⟩
    rfl

end Checksums

section Siblings

/-- The part of a key up to its last slash. -/
def directory (key : Str) : Str :=
  match Text.lastIndex '/' key with
  | none => []
  | some slash => key.take (slash + 1)

theorem siblingKey_eq (key filename : Str) :
    siblingKey key filename = directory key ++ filename := by
  unfold siblingKey directory
  cases Text.lastIndex '/' key <;> rfl

theorem directory_append_slash
    (front : Str) {name : Str}
    (hname : '/' ∉ name) :
    directory (front ++ '/' :: name) = front ++ ['/'] := by
  unfold directory
  rw [Text.lastIndex_append_cons '/' front name hname]
  have hsplit : front ++ '/' :: name = (front ++ ['/']) ++ name := by simp
  dsimp only
  rw [hsplit, List.take_left' (by simp)]

theorem directory_eq_nil
    {name : Str}
    (hname : '/' ∉ name) :
    directory name = [] := by
  unfold directory
  rw [(Text.lastIndex_eq_none_iff '/' name).mpr hname]

/-- A directory is empty or ends with a slash. -/
theorem directory_cases (key : Str) :
    directory key = [] ∨ ∃ front, directory key = front ++ ['/'] := by
  unfold directory
  cases h : Text.lastIndex '/' key with
  | none => exact Or.inl rfl
  | some slash =>
      have hsplit := (Text.lastIndex_split h).1
      have hlt : slash < key.length := by
        by_contra hge
        rw [List.take_of_length_le (by omega)] at hsplit
        have := congrArg List.length hsplit
        simp at this
      refine Or.inr ⟨key.take slash, ?_⟩
      have hget : key[slash]? = some '/' := by
        rw [hsplit, List.getElem?_append_right (by simp)]
        simp [Nat.min_eq_left hlt.le]
      dsimp only
      rw [List.take_add_one, hget]
      rfl

/-- A file name belongs to the directory it was put in. -/
theorem directory_append
    (key : Str) {name : Str}
    (hname : '/' ∉ name) :
    directory (directory key ++ name) = directory key := by
  rcases directory_cases key with hnil | ⟨front, hfront⟩
  · rw [hnil]
    exact directory_eq_nil hname
  · rw [hfront, List.append_assoc]
    exact directory_append_slash front hname

/-- The key of a scheme is its directory and `scheme.pb`. -/
theorem eq_directory_append
    {key : Str}
    (h : isSchemePb key = true) :
    key = directory key ++ schemeName := by
  simp only [isSchemePb, Bool.or_eq_true, beq_iff_eq] at h
  rcases h with rfl | hsuffix
  · rw [directory_eq_nil (by decide)]
    rfl
  · obtain ⟨front, rfl⟩ := List.isSuffixOf_iff_suffix.mp hsuffix
    rw [directory_append_slash front (by decide), List.append_assoc]
    rfl

/-- Schemes with different keys are in different directories, so the objects
next to them have different keys. -/
theorem ne_of_isSchemePb
    {key key' name name' : Str}
    (hkey : isSchemePb key = true) (hkey' : isSchemePb key' = true)
    (hne : key ≠ key')
    (hname : '/' ∉ name) (hname' : '/' ∉ name') :
    directory key ++ name ≠ directory key' ++ name' := by
  intro heq
  have hdirectory := congrArg directory heq
  rw [directory_append key hname, directory_append key' hname'] at hdirectory
  refine hne ?_
  rw [eq_directory_append hkey, eq_directory_append hkey', hdirectory]

end Siblings

end Backup
end YdbSnippets

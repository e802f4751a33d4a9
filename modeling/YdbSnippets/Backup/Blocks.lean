import YdbSnippets.Backup.Scanner

/-!
# Finding and removing attribute blocks

The three scanners over a scheme (the brace matcher, the key extractor and the
block finder), the span that is deleted with a block, and the rewriting of a
scheme.
-/

namespace YdbSnippets
namespace Backup

open Python

def attributesWord : Str := "attributes".toList

def keyWord : Str := "key".toList

/-- `DOCUMENT_ATTRIBUTE` -/
def documentAttribute : CodePoints := "__document_api_version".toList.map Char.toNat

/-- `DYNAMODB_ATTRIBUTE_PREFIX` -/
def dynamodbAttributePrefix : CodePoints := "dynamodb".toList.map Char.toNat

section Scanners

/-- The end of the word that starts at `i`. -/
def wordEnd (text : Str) (i limit : Nat) : Nat :=
  skipWhile isWordPart text limit (i + 1)

theorem lt_wordEnd (text : Str) (i limit : Nat) :
    i < wordEnd text i limit := by
  have := le_skipWhile isWordPart text limit (i + 1)
  unfold wordEnd
  omega

/-- The loop of `_extract_key`. -/
def extractKeyFrom (text : Str) (limit i : Nat) (depth : Int) (key : Option CodePoints) :
    Except Failure (Option CodePoints) :=
  match _h : peek text limit i with
  | none => .ok key
  | some c =>
      match _ho : skipOpaque text i limit c with
      | some (.error e) => .error e
      | some (.ok j) => extractKeyFrom text limit j depth key
      | none =>
          if c = '{' then extractKeyFrom text limit (i + 1) (depth + 1) key
          else if c = '}' then extractKeyFrom text limit (i + 1) (depth - 1) key
          else if isWordStart c then
            let stop := wordEnd text i limit
            if depth = 1 ∧ slice text i stop = keyWord then
              match _hr : readStrings text stop limit with
              | .error e => .error e
              | .ok (none, _) => .error (.schemeError "у атрибута нет строкового поля key")
              | .ok (some value, j) =>
                  if key.isSome then
                    .error (.schemeError "в блоке attributes несколько полей key")
                  else extractKeyFrom text limit j depth (some value)
            else extractKeyFrom text limit stop depth key
          else extractKeyFrom text limit (i + 1) depth key
termination_by limit - i
decreasing_by
  all_goals
    have hlt := lt_of_peek _h
    have hword := lt_wordEnd text i limit
  · have := lt_of_skipOpaque _h _ho
    omega
  · omega
  · omega
  · have hread := le_of_readStrings _hr
    omega
  · omega
  · omega

/-- `_extract_key`: `start` is the position of the opening brace. -/
def extractKey (text : Str) (start limit : Nat) : Except Failure (Option CodePoints) :=
  extractKeyFrom text limit start 0 none

/-- The loop of `_scan_message`. -/
def scanMessageFrom (text : Str) (limit i depth : Nat) : Except Failure Nat :=
  match _h : peek text limit i with
  | none => .error (.schemeError "незакрытый блок в scheme.pb")
  | some c =>
      match _ho : skipOpaque text i limit c with
      | some (.error e) => .error e
      | some (.ok j) => scanMessageFrom text limit j depth
      | none =>
          if c = '{' then scanMessageFrom text limit (i + 1) (depth + 1)
          else if c = '}' then
            if depth = 1 then .ok (i + 1) else scanMessageFrom text limit (i + 1) (depth - 1)
          else scanMessageFrom text limit (i + 1) depth
termination_by limit - i
decreasing_by
  all_goals
    have hlt := lt_of_peek _h
  · have := lt_of_skipOpaque _h _ho
    omega
  all_goals omega

/-- `_scan_message`: the position after the brace that closes the one at
`openBrace`. -/
def scanMessage (text : Str) (openBrace limit : Nat) : Except Failure Nat :=
  if peek text limit openBrace = some '{' then
    scanMessageFrom text limit (openBrace + 1) 1
  else .error (.schemeError "ожидалась '\x7b' в scheme.pb")

theorem scanMessageFrom_bounds
    {text : Str} {limit i depth j : Nat}
    (h : scanMessageFrom text limit i depth = .ok j) :
    i < j ∧ j ≤ limit := by
  fun_induction scanMessageFrom with
  | case1 => cases h
  | case2 => cases h
  | case3 i depth c hpeek k hopaque ih =>
      have := lt_of_skipOpaque hpeek hopaque
      have := ih h
      omega
  | case4 i depth hpeek _ ih =>
      have := ih h
      omega
  | case5 i hpeek _ _ =>
      cases h
      have := lt_of_peek hpeek
      omega
  | case6 i depth hpeek _ _ _ ih =>
      have := ih h
      omega
  | case7 i depth c hpeek _ _ _ ih =>
      have := ih h
      omega

theorem scanMessage_bounds
    {text : Str} {openBrace limit close : Nat}
    (h : scanMessage text openBrace limit = .ok close) :
    openBrace + 1 < close ∧ close ≤ limit := by
  unfold scanMessage at h
  split_ifs at h
  exact scanMessageFrom_bounds h

end Scanners

section Finding

/-- The position after the last newline before `i`. -/
def lineStart (text : Str) (i : Nat) : Nat :=
  match Text.lastIndex '\n' (text.take i) with
  | some j => j + 1
  | none => 0

/-- `_deletion_span`: a block that is alone at the start of its line goes with
the indentation and, if nothing follows on its line, with the line end. -/
def deletionSpan (text : Str) (keywordStart contentEnd : Nat) : Nat × Nat :=
  let start := lineStart text keywordStart
  if !(strip (slice text start keywordStart)).isEmpty then (keywordStart, contentEnd)
  else
    let i := skipWhile isBlank text text.length contentEnd
    let i := if peek text text.length i = some '\r' then i + 1 else i
    if peek text text.length i = some '\n' then (start, i + 1) else (start, contentEnd)

/-- The position of the brace that opens the block of an `attributes` at the
end of which `i` stands, or `none` if no block follows. -/
def blockBrace (text : Str) (i limit : Nat) : Option Nat :=
  let brace := skipWs text i limit
  let brace := if peek text limit brace = some ':' then skipWs text (brace + 1) limit else brace
  if peek text limit brace = some '{' then some brace else none

theorem le_of_blockBrace
    {text : Str} {i limit brace : Nat}
    (h : blockBrace text i limit = some brace) :
    i ≤ brace := by
  have h1 := le_skipWhile isWs text limit i
  have h2 := le_skipWhile isWs text limit (skipWhile isWs text limit i + 1)
  unfold blockBrace skipWs at h
  simp only at h
  split_ifs at h <;>
    · cases h
      omega

/-- The loop of `_find_attribute_blocks`. -/
def findFrom (text : Str) (limit i depth : Nat) : Except Failure (List AttrBlock) :=
  match _h : peek text limit i with
  | none =>
      if depth = 0 then .ok []
      else .error (.schemeError "незакрытый блок в scheme.pb")
  | some c =>
      match _ho : skipOpaque text i limit c with
      | some (.error e) => .error e
      | some (.ok j) => findFrom text limit j depth
      | none =>
          if c = '{' then findFrom text limit (i + 1) (depth + 1)
          else if c = '}' then
            if depth = 0 then .error (.schemeError "лишняя '\x7d' в scheme.pb")
            else findFrom text limit (i + 1) (depth - 1)
          else if isWordStart c then
            let stop := wordEnd text i limit
            if slice text i stop = attributesWord then
              match _hb : blockBrace text stop limit with
              | none => findFrom text limit stop depth
              | some brace =>
                  match _hc : scanMessage text brace limit with
                  | .error e => .error e
                  | .ok close => do
                      let contentEnd :=
                        if peek text limit close = some ';' then close + 1 else close
                      let key ← extractKey text brace close
                      let span := deletionSpan text i contentEnd
                      let nested ← findFrom text (close - 1) (brace + 1) 0
                      let rest ← findFrom text limit close depth
                      return ⟨span.1, span.2, key⟩ :: (nested ++ rest)
            else findFrom text limit stop depth
          else findFrom text limit (i + 1) depth
termination_by limit - i
decreasing_by
  all_goals
    have hlt := lt_of_peek _h
    have hword := lt_wordEnd text i limit
  · have := lt_of_skipOpaque _h _ho
    omega
  · omega
  · omega
  · omega
  · have hbrace := le_of_blockBrace _hb
    have hclose := scanMessage_bounds _hc
    omega
  · have hbrace := le_of_blockBrace _hb
    have hclose := scanMessage_bounds _hc
    omega
  · omega
  · omega

/-- `_find_attribute_blocks` -/
def findAttributeBlocks (text : Str) (start limit : Nat) :
    Except Failure (List AttrBlock) :=
  findFrom text limit start 0

end Finding

section Rewriting

/-- `attribute_should_go` -/
def attributeShouldGo (key : CodePoints) : Bool :=
  key == documentAttribute || dynamodbAttributePrefix.isPrefixOf key

/-- The block has a key that should go. -/
def AttrBlock.removable (block : AttrBlock) : Bool :=
  match block.key with
  | some key => attributeShouldGo key
  | none => false

/-- The order of the spans: by start, and at one start the longest first. -/
def spanLe (a b : AttrBlock) : Bool :=
  a.start < b.start || (a.start == b.start && b.stop - b.start ≤ a.stop - a.start)

/-- The loop over the sorted spans: a block inside the last chosen one is
skipped.  The chosen blocks come latest first. -/
def chooseBlocks : List AttrBlock → List AttrBlock → Except Failure (List AttrBlock)
  | chosen, [] => .ok chosen.reverse
  | [], block :: rest => chooseBlocks [block] rest
  | last :: chosen, block :: rest =>
      if last.start ≤ block.start ∧ block.stop ≤ last.stop then
        chooseBlocks (last :: chosen) rest
      else if block.start < last.stop then
        .error (.schemeError "перекрывающиеся блоки attributes в scheme.pb")
      else chooseBlocks (block :: last :: chosen) rest

/-- The loop that joins what stands between the chosen blocks. -/
def excise (text : Str) : Nat → List AttrBlock → Except Failure Str
  | cursor, [] => .ok (text.drop cursor)
  | cursor, block :: rest =>
      if block.start < cursor then
        .error (.schemeError "перекрывающиеся блоки attributes в scheme.pb")
      else do
        let tail ← excise text block.stop rest
        return slice text cursor block.start ++ tail

/-- `rewrite_document_scheme`: `none` for a table without the document
attribute, otherwise the new text and the names of the removed attributes. -/
def rewriteDocumentScheme (text : Str) :
    Except Failure (Option (Str × List CodePoints)) := do
  let blocks ← findAttributeBlocks text 0 text.length
  if !blocks.any (fun block => block.key == some documentAttribute) then return none
  let removable := blocks.filter AttrBlock.removable
  if !removable.any (fun block => block.key == some documentAttribute) then return none
  let chosen ← chooseBlocks [] (removable.mergeSort spanLe)
  let rewritten ← excise text 0 chosen
  let left ← findAttributeBlocks rewritten 0 rewritten.length
  if left.any AttrBlock.removable then
    throw (.schemeError "после правки в scheme.pb остались атрибуты документной таблицы")
  return some (rewritten, chosen.filterMap AttrBlock.key)

/-- The document attribute is one of those that go. -/
theorem removable_of_document
    {block : AttrBlock}
    (h : (block.key == some documentAttribute) = true) :
    block.removable = true := by
  unfold AttrBlock.removable
  rw [beq_iff_eq.mp h]
  simp [attributeShouldGo]

/-- What is known of a text that was rewritten: it had the document attribute,
and a scan of the new text finds nothing more to remove. -/
theorem rewriteDocumentScheme_inv
    {text new : Str} {removed : List CodePoints}
    (h : rewriteDocumentScheme text = .ok (some (new, removed))) :
    ∃ blocks left,
      findAttributeBlocks text 0 text.length = .ok blocks ∧
      blocks.any AttrBlock.removable = true ∧
      findAttributeBlocks new 0 new.length = .ok left ∧
      left.any AttrBlock.removable = false := by
  unfold rewriteDocumentScheme at h
  cases hblocks : findAttributeBlocks text 0 text.length with
  | error e => simp [hblocks, bind, Except.bind] at h
  | ok blocks =>
      simp only [hblocks, bind, Except.bind, pure, Except.pure] at h
      split_ifs at h with hnone hnone'
      · cases h
      · cases h
      cases hchosen : chooseBlocks [] ((blocks.filter AttrBlock.removable).mergeSort spanLe) with
      | error e => simp [hchosen] at h
      | ok chosen =>
          cases hexcise : excise text 0 chosen with
          | error e => simp [hchosen, hexcise] at h
          | ok rewritten =>
              cases hleft : findAttributeBlocks rewritten 0 rewritten.length with
              | error e => simp [hchosen, hexcise, hleft] at h
              | ok left =>
                  simp only [hchosen, hexcise, hleft, throw, throwThe,
                    MonadExceptOf.throw] at h
                  split_ifs at h with hremovable
                  cases h
                  refine ⟨blocks, left, rfl, ?_, hleft, Bool.eq_false_iff.mpr hremovable⟩
                  simp only [Bool.not_eq_true', Bool.not_eq_false] at hnone
                  obtain ⟨block, hblock, hkey⟩ := List.any_eq_true.mp hnone
                  exact List.any_eq_true.mpr ⟨block, hblock, removable_of_document hkey⟩

/-- Rewriting a rewritten text changes nothing. -/
theorem rewriteDocumentScheme_rewritten
    {text new : Str} {removed : List CodePoints}
    (h : rewriteDocumentScheme text = .ok (some (new, removed))) :
    rewriteDocumentScheme new = .ok none := by
  obtain ⟨_, left, _, _, hleft, hnone⟩ := rewriteDocumentScheme_inv h
  have hany : left.any (fun block => block.key == some documentAttribute) = false := by
    rw [List.any_eq_false] at hnone ⊢
    intro block hblock hkey
    exact hnone block hblock (removable_of_document hkey)
  unfold rewriteDocumentScheme
  simp [hleft, hany, bind, Except.bind, pure, Except.pure]

/-- A rewritten text differs from the one before. -/
theorem ne_of_rewriteDocumentScheme
    {text new : Str} {removed : List CodePoints}
    (h : rewriteDocumentScheme text = .ok (some (new, removed))) :
    new ≠ text := by
  rintro rfl
  obtain ⟨blocks, left, hblocks, hany, hleft, hnone⟩ := rewriteDocumentScheme_inv h
  rw [hblocks] at hleft
  cases hleft
  rw [hany] at hnone
  cases hnone

end Rewriting

end Backup
end YdbSnippets

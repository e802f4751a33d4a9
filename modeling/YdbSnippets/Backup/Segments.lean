import YdbSnippets.Backup.Slices
import YdbSnippets.Backup.Blocks

/-!
# Texts with nested blocks

A text is cut into plain parts and blocks, and blocks may contain blocks.  The
spans of the blocks come out in document order, the outermost ones that should
go are chosen, and what is left are the parts outside of them.
-/

namespace YdbSnippets
namespace Backup

open Python

/-- A text in plain parts and keyed blocks. -/
inductive Segments
  | done
  | plain (part : Str) (rest : Segments)
  | block (key : CodePoints) (inner rest : Segments)

namespace Segments

/-- The whole text. -/
def text : Segments → Str
  | done => []
  | plain part rest => part ++ rest.text
  | block _ inner rest => inner.text ++ rest.text

/-- The spans of all blocks of a text that starts at `start`. -/
def blocks (start : Nat) : Segments → List AttrBlock
  | done => []
  | plain part rest => rest.blocks (start + part.length)
  | block key inner rest =>
      ⟨start, start + inner.text.length, some key⟩ ::
        (inner.blocks start ++ rest.blocks (start + inner.text.length))

/-- The spans of the outermost blocks that should go. -/
def going (start : Nat) : Segments → List AttrBlock
  | done => []
  | plain part rest => rest.going (start + part.length)
  | block key inner rest =>
      if attributeShouldGo key then
        ⟨start, start + inner.text.length, some key⟩ ::
          rest.going (start + inner.text.length)
      else inner.going start ++ rest.going (start + inner.text.length)

/-- The text outside of the blocks that should go. -/
def kept : Segments → Str
  | done => []
  | plain part rest => part ++ rest.kept
  | block key inner rest =>
      if attributeShouldGo key then rest.kept else inner.kept ++ rest.kept

/-- No block is empty. -/
def Solid : Segments → Prop
  | done => True
  | plain _ rest => rest.Solid
  | block _ inner rest => inner.text ≠ [] ∧ inner.Solid ∧ rest.Solid

/-- One text after another. -/
def append : Segments → Segments → Segments
  | done, b => b
  | plain part rest, b => plain part (rest.append b)
  | block key inner rest, b => block key inner (rest.append b)

section Append

variable (a b : Segments)

@[simp] theorem text_append :
    (a.append b).text = a.text ++ b.text := by
  induction a with
  | done => rfl
  | plain part rest ih => simp [append, text, ih]
  | block key inner rest _ ih => simp [append, text, ih]

@[simp] theorem kept_append :
    (a.append b).kept = a.kept ++ b.kept := by
  induction a with
  | done => rfl
  | plain part rest ih => simp [append, kept, ih]
  | block key inner rest _ ih =>
      cases hkey : attributeShouldGo key <;> simp [append, kept, hkey, ih]

theorem blocks_append (start : Nat) :
    (a.append b).blocks start = a.blocks start ++ b.blocks (start + a.text.length) := by
  induction a generalizing start with
  | done => rfl
  | plain part rest ih =>
      simp [append, blocks, text, ih, Nat.add_assoc]
  | block key inner rest _ ih =>
      simp [append, blocks, text, ih, Nat.add_assoc]

theorem going_append (start : Nat) :
    (a.append b).going start = a.going start ++ b.going (start + a.text.length) := by
  induction a generalizing start with
  | done => rfl
  | plain part rest ih =>
      simp [append, going, text, ih, Nat.add_assoc]
  | block key inner rest _ ih =>
      simp only [append, going, text, ih, List.length_append]
      split_ifs <;> simp [Nat.add_assoc]

theorem solid_append :
    (a.append b).Solid ↔ a.Solid ∧ b.Solid := by
  induction a with
  | done => simp [append, Solid]
  | plain part rest ih => simpa [append, Solid] using ih
  | block key inner rest _ ih =>
      simp only [append, Solid, ih]
      tauto

end Append

section Spans

variable {s : Segments}

/-- The spans lie within the text and are not empty. -/
theorem blocks_bounds
    (hs : s.Solid) (start : Nat) :
    ∀ b ∈ s.blocks start,
      start ≤ b.start ∧ b.start < b.stop ∧ b.stop ≤ start + s.text.length := by
  induction s generalizing start with
  | done => simp [blocks]
  | plain part rest ih =>
      intro b hb
      have h := ih hs (start + part.length) b hb
      simp only [text, List.length_append]
      omega
  | block key inner rest ihInner ihRest =>
      obtain ⟨hne, hinner, hrest⟩ := hs
      have hpos := List.length_pos_iff.mpr hne
      intro b hb
      simp only [text, List.length_append]
      rcases List.mem_cons.mp hb with rfl | hb
      · dsimp only
        omega
      · rcases List.mem_append.mp hb with hb | hb
        · have h := ihInner hinner start b hb
          omega
        · have h := ihRest hrest (start + inner.text.length) b hb
          omega

theorem going_subset (s : Segments) (start : Nat) :
    ∀ b ∈ s.going start, b ∈ s.blocks start := by
  induction s generalizing start with
  | done => simp [going]
  | plain part rest ih => exact ih _
  | block key inner rest ihInner ihRest =>
      intro b hb
      rw [blocks, List.mem_cons, List.mem_append]
      unfold going at hb
      split_ifs at hb
      · rcases List.mem_cons.mp hb with rfl | hb
        · exact Or.inl rfl
        · exact Or.inr (Or.inr (ihRest _ b hb))
      · rcases List.mem_append.mp hb with hb | hb
        · exact Or.inr (Or.inl (ihInner _ b hb))
        · exact Or.inr (Or.inr (ihRest _ b hb))

/-- Document order is the order of the spans. -/
theorem blocks_sorted
    (hs : s.Solid) (start : Nat) :
    (s.blocks start).Pairwise (fun a b => spanLe a b = true) := by
  induction s generalizing start with
  | done => exact List.Pairwise.nil
  | plain part rest ih => exact ih hs _
  | block key inner rest ihInner ihRest =>
      obtain ⟨hne, hinner, hrest⟩ := hs
      have hpos := List.length_pos_iff.mpr hne
      rw [blocks, List.pairwise_cons, List.pairwise_append]
      refine ⟨?_, ihInner hinner _, ihRest hrest _, ?_⟩
      · intro b hb
        simp only [spanLe, Bool.or_eq_true, decide_eq_true_eq, Bool.and_eq_true, beq_iff_eq]
        rcases List.mem_append.mp hb with hb | hb
        · have h := blocks_bounds hinner start b hb
          omega
        · have h := blocks_bounds hrest _ b hb
          omega
      · intro a ha b hb
        have h1 := blocks_bounds hinner start a ha
        have h2 := blocks_bounds hrest _ b hb
        simp only [spanLe, Bool.or_eq_true, decide_eq_true_eq]
        omega

end Spans

section Choosing

theorem chooseBlocks_inside
    {last : AttrBlock} {bs : List AttrBlock}
    (hbs : ∀ b ∈ bs, last.start ≤ b.start ∧ b.stop ≤ last.stop)
    (chosen more : List AttrBlock) :
    chooseBlocks (last :: chosen) (bs ++ more) = chooseBlocks (last :: chosen) more := by
  induction bs with
  | nil => rfl
  | cons b bs ih =>
      rw [List.cons_append, chooseBlocks, if_pos (hbs b List.mem_cons_self)]
      exact ih (fun c hc => hbs c (List.mem_cons_of_mem _ hc))

/-- A block behind the last chosen one is chosen. -/
theorem chooseBlocks_behind
    {b : AttrBlock} {chosen : List AttrBlock}
    (hb : b.start < b.stop)
    (hlast : ∀ last ∈ chosen.head?, last.stop ≤ b.start)
    (more : List AttrBlock) :
    chooseBlocks chosen (b :: more) = chooseBlocks (b :: chosen) more := by
  cases chosen with
  | nil => rfl
  | cons last chosen =>
      have h := hlast last rfl
      rw [chooseBlocks, if_neg (by omega), if_neg (by omega)]

/-- Of the blocks that should go the outermost ones are chosen. -/
theorem chooseBlocks_blocks
    (s : Segments) (hs : s.Solid) (start : Nat) (chosen more : List AttrBlock)
    (hlast : ∀ last ∈ chosen.head?, last.stop ≤ start) :
    chooseBlocks chosen ((s.blocks start).filter AttrBlock.removable ++ more) =
      chooseBlocks ((s.going start).reverse ++ chosen) more := by
  induction s generalizing start chosen more with
  | done => rfl
  | plain part rest ih =>
      exact ih hs _ _ _ (fun last h => Nat.le_add_right_of_le (hlast last h))
  | block key inner rest ihInner ihRest =>
      obtain ⟨hne, hinner, hrest⟩ := hs
      have hpos := List.length_pos_iff.mpr hne
      rw [blocks, going]
      have hremovable : ∀ a b, AttrBlock.removable ⟨a, b, some key⟩ = attributeShouldGo key :=
        fun _ _ => rfl
      by_cases hkey : attributeShouldGo key = true
      · rw [List.filter_cons_of_pos ((hremovable _ _).trans hkey), if_pos hkey, List.cons_append,
          chooseBlocks_behind (by dsimp only; omega) hlast, List.filter_append,
          List.append_assoc, chooseBlocks_inside]
        · rw [ihRest hrest _ _ _ (by
            intro last h
            cases h
            exact Nat.le_refl _)]
          simp
        · intro b hb
          have h := blocks_bounds hinner start b (List.mem_of_mem_filter hb)
          dsimp only
          omega
      · rw [List.filter_cons_of_neg (by rw [hremovable]; exact hkey), if_neg hkey,
          List.filter_append, List.append_assoc, ihInner hinner _ _ _ hlast, ihRest hrest]
        · simp
        · intro last h
          -- the last chosen block is one of the inner ones or one of those before
          cases hgoing : (inner.going start).reverse with
          | nil =>
              rw [hgoing] at h
              exact Nat.le_add_right_of_le (hlast last h)
          | cons b bs =>
              rw [hgoing] at h
              cases h
              have hmem : last ∈ inner.going start := by
                rw [← List.mem_reverse, hgoing]
                exact List.mem_cons_self
              exact (blocks_bounds hinner start last (going_subset inner start last hmem)).2.2

/-- The blocks that are chosen from all blocks of a text. -/
theorem chooseBlocks_eq
    {s : Segments} (hs : s.Solid) (start : Nat) :
    chooseBlocks [] (((s.blocks start).filter AttrBlock.removable).mergeSort spanLe) =
      .ok (s.going start) := by
  have hsorted : ((s.blocks start).filter AttrBlock.removable).Pairwise
      (fun a b => spanLe a b = true) := (blocks_sorted hs start).filter _
  rw [List.mergeSort_of_pairwise hsorted]
  have h := chooseBlocks_blocks s hs start [] [] (by simp)
  simpa [chooseBlocks] using h

end Choosing

section Excising

variable {whole : Str}

/-- What stands before the next block is kept. -/
theorem excise_forward
    {cursor cursor' : Nat} {bs : List AttrBlock} {part rest : Str}
    (hwhole : slice whole cursor whole.length = part ++ rest)
    (hcursor : cursor' = cursor + part.length)
    (hbs : ∀ b ∈ bs.head?, cursor' ≤ b.start) :
    excise whole cursor bs = (excise whole cursor' bs).map (part ++ ·) := by
  subst hcursor
  have hdrop : whole.drop cursor = part ++ rest := by
    rw [← hwhole, slice, List.take_length]
  cases bs with
  | nil =>
      simp only [excise, Except.map]
      rw [← List.drop_drop, hdrop, List.drop_left]
  | cons b bs =>
      have hb := hbs b rfl
      simp only [excise]
      rw [if_neg (by omega), if_neg (by omega)]
      cases excise whole b.stop bs with
      | error e => rfl
      | ok tail =>
          simp only [bind, Except.bind, pure, Except.pure, Except.map, Except.ok.injEq]
          rw [← List.append_assoc]
          congr 1
          rw [slice_eq_take, slice_eq_take, hdrop, ← List.drop_drop, hdrop, List.drop_left,
            List.take_append, List.take_of_length_le (by omega)]
          congr 2
          omega

/-- Cutting out the blocks that should go leaves what is outside of them. -/
theorem excise_going
    (s : Segments) (hs : s.Solid) (start : Nat) (more : List AttrBlock) {rest : Str}
    (hwhole : slice whole start whole.length = s.text ++ rest)
    (hmore : ∀ b ∈ more.head?, start + s.text.length ≤ b.start) :
    excise whole start (s.going start ++ more) =
      (excise whole (start + s.text.length) more).map (s.kept ++ ·) := by
  have hid : ∀ x : Except Failure Str, x = x.map ([] ++ ·) := by
    intro x
    cases x <;> rfl
  have hcomp : ∀ (x : Except Failure Str) (a b : Str),
      (x.map (b ++ ·)).map (a ++ ·) = x.map ((a ++ b) ++ ·) := by
    intro x a b
    cases x <;> simp [Except.map]
  -- the first block that goes starts within the text, or after it
  have hhead : ∀ (s : Segments) (hs : s.Solid) (start : Nat) (more : List AttrBlock),
      (∀ b ∈ more.head?, start + s.text.length ≤ b.start) →
        ∀ b ∈ (s.going start ++ more).head?, start ≤ b.start := by
    intro s hs start more hmore b hb
    cases hgoing : s.going start with
    | nil =>
        rw [hgoing] at hb
        have := hmore b hb
        omega
    | cons c cs =>
        rw [hgoing] at hb
        cases hb
        exact (blocks_bounds hs start b (going_subset s start b (by rw [hgoing]; simp))).1
  induction s generalizing start more rest with
  | done => exact hid _
  | plain part s ih =>
      simp only [text, List.append_assoc] at hwhole
      simp only [text, List.length_append, ← Nat.add_assoc] at hmore ⊢
      rw [going, kept, excise_forward hwhole rfl (hhead s hs _ more hmore),
        ih hs _ _ (slice_after hwhole) hmore, hcomp]
  | block key inner s ihInner ih =>
      obtain ⟨hne, hinner, hs⟩ := hs
      simp only [text, List.append_assoc] at hwhole
      simp only [text, List.length_append, ← Nat.add_assoc] at hmore ⊢
      have hafter := slice_after hwhole
      rw [going, kept]
      split_ifs with hkey
      · rw [List.cons_append, excise, if_neg (Nat.lt_irrefl _), ih hs _ _ hafter hmore]
        have hnone : slice whole start start = [] := by
          rw [slice_eq_take, Nat.sub_self, List.take_zero]
        rw [hnone]
        cases excise whole (start + inner.text.length + s.text.length) more <;> rfl
      · rw [List.append_assoc, ihInner hinner _ _ hwhole (hhead s hs _ more hmore),
          ih hs _ _ hafter hmore, hcomp]

end Excising

end Segments

end Backup
end YdbSnippets

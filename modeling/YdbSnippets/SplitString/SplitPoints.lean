import YdbSnippets.Lists.Sorting
import YdbSnippets.Numbers.Positional
import YdbSnippets.Python.Text
import Mathlib.Algebra.Order.Floor.Ring
import Mathlib.Data.Char
import Mathlib.Data.List.GetD
import Mathlib.Data.Nat.Find
import Mathlib.Data.Rat.Floor
import Mathlib.Tactic.Linarith

/-!
# Split points for string keys

`splitstring.py`: the borders of equal partitions for keys that are written with
the symbols of base 64.
-/

namespace YdbSnippets
namespace SplitString

open Positional Python Sorting

section Definitions

/-- `BASE64SYMBOLS` -/
def base64Symbols : Str :=
  "abcdefghijklmnopqrstuvwxyzABCDEFGHIJKLMNOPQRSTUVWXYZ0123456789+/".toList

/-- `SYMBOLS` -/
def symbols : Str :=
  sortedBy id base64Symbols

/-- `NUMSYMS` -/
def numSyms : Nat :=
  symbols.length

/-- The integer nearest to the root of this degree.  No root of an integer is
halfway between two integers. -/
def nearestRoot (degree n : Nat) : Nat :=
  Nat.findGreatest (fun k => (2 * k - 1) ^ degree ≤ 2 ^ degree * n) n

/-- `NUMCHARS` -/
def numChars (numParts : Nat) : Nat :=
  1 + nearestRoot numSyms numParts

/-- `MAXVAL` -/
def maxVal (numParts : Nat) : Nat :=
  numSyms ^ numChars numParts

/-- `ADJUST`, without rounding errors. -/
def adjust (numParts : Nat) : ℚ :=
  (maxVal numParts : ℚ) / numParts

/-- `round`: to the nearest integer, and halfway to the even one. -/
def roundHalfEven (q : ℚ) : Int :=
  if q - ⌊q⌋ < 1 / 2 then ⌊q⌋
  else if 1 / 2 < q - ⌊q⌋ then ⌊q⌋ + 1
  else if ⌊q⌋ % 2 = 0 then ⌊q⌋
  else ⌊q⌋ + 1

/-- The loop of `makeOut`, with this many turns to go. -/
def makeOutLoop : Nat → Nat → Str → Str
  | 0, _, ret => ret
  | turns + 1, cur, ret =>
      let tmp := cur % numSyms
      makeOutLoop turns (cur / numSyms) ((symbols.drop tmp).take 1 ++ ret)

/-- `round(pos * ADJUST)` -/
def position (numParts pos : Nat) : Nat :=
  (roundHalfEven (pos * adjust numParts)).toNat

/-- `makeOut` -/
def makeOut (numParts pos : Nat) : Str :=
  makeOutLoop (numChars numParts) (position numParts pos) []

/-- `OUT` -/
def splitPoints (numParts : Nat) : List Str :=
  (List.range (numParts - 1)).map fun i => makeOut numParts (i + 1)

/-- The bytes of a text of ASCII symbols. -/
def keyBytes (s : Str) : List Nat :=
  s.map Char.toNat

end Definitions

section Rounding

theorem roundHalfEven_le (q : ℚ) :
    (roundHalfEven q : ℚ) ≤ q + 1 / 2 := by
  have hfloor := Int.floor_le q
  unfold roundHalfEven
  split_ifs with h h' h''
  · linarith
  · push_cast
    linarith
  · linarith
  · push_cast
    linarith

theorem le_roundHalfEven (q : ℚ) :
    q - 1 / 2 ≤ (roundHalfEven q : ℚ) := by
  have hfloor := Int.lt_floor_add_one q
  unfold roundHalfEven
  split_ifs with h h' h''
  · linarith
  · push_cast
    linarith
  · linarith
  · push_cast
    linarith

@[simp] theorem roundHalfEven_intCast (n : Int) :
    roundHalfEven n = n := by
  unfold roundHalfEven
  simp

end Rounding

section Symbols

@[simp] theorem numSyms_eq : numSyms = 64 :=
  length_sortedBy id base64Symbols

/-- The symbols stand in the order of their codes. -/
theorem symbols_sorted :
    symbols.Pairwise fun a b => a.toNat < b.toNat := by
  have hnodup : symbols.Nodup := by
    refine (sortedBy_perm id base64Symbols).nodup_iff.mpr ?_
    decide +kernel
  have hsorted : symbols.Pairwise fun a b => a ≤ b := ascending_sortedBy id base64Symbols
  refine (hsorted.and hnodup).imp ?_
  rintro a b ⟨hle, hne⟩
  exact lt_of_le_of_ne hle fun h => hne (Char.toNat_inj.mp h)

/-- The symbol of a digit. -/
def symbolAt (digit : Nat) : Char :=
  symbols.getD digit '+'

theorem take_symbols
    {digit : Nat} (h : digit < numSyms) :
    (symbols.drop digit).take 1 = [symbolAt digit] := by
  have hlt : digit < symbols.length := h
  rw [symbolAt, List.getD_eq_getElem _ _ hlt, List.drop_eq_getElem_cons hlt]
  rfl

theorem symbolAt_lt
    {a b : Nat} (hb : b < numSyms) (hab : a < b) :
    (symbolAt a).toNat < (symbolAt b).toNat := by
  have hb' : b < symbols.length := hb
  have ha' : a < symbols.length := hab.trans hb'
  rw [symbolAt, symbolAt, List.getD_eq_getElem _ _ ha', List.getD_eq_getElem _ _ hb']
  exact List.pairwise_iff_getElem.mp symbols_sorted a b ha' hb' hab

/-- The loop puts the symbols of the digits in front. -/
theorem makeOutLoop_eq (turns cur : Nat) (ret : Str) :
    makeOutLoop turns cur ret = (digitsOf numSyms turns cur).map symbolAt ++ ret := by
  induction turns generalizing cur ret with
  | zero => rfl
  | succ turns ih =>
      have hdigit : cur % numSyms < numSyms := Nat.mod_lt _ (by simp)
      rw [makeOutLoop, ih, take_symbols hdigit, digitsOf, List.map_append, List.append_assoc]
      rfl

theorem makeOut_eq (numParts pos : Nat) :
    makeOut numParts pos =
      (digitsOf numSyms (numChars numParts) (position numParts pos)).map symbolAt := by
  rw [makeOut, makeOutLoop_eq, List.append_nil]

theorem length_makeOut (numParts pos : Nat) :
    (makeOut numParts pos).length = numChars numParts := by
  rw [makeOut_eq, List.length_map, length_digitsOf]

theorem lt_numSyms_of_mem
    {width n digit : Nat} (h : digit ∈ digitsOf numSyms width n) :
    digit < numSyms :=
  lt_of_mem_digitsOf (by simp) h

/-- Strings are ordered as the positions that their digits can tell apart. -/
theorem makeOut_lt_iff (numParts p q : Nat) :
    keyBytes (makeOut numParts p) < keyBytes (makeOut numParts q) ↔
      position numParts p % maxVal numParts < position numParts q % maxVal numParts := by
  have hspelled : ∀ pos, keyBytes (makeOut numParts pos) =
      (digitsOf numSyms (numChars numParts) (position numParts pos)).map
        fun digit => (symbolAt digit).toNat := by
    intro pos
    rw [keyBytes, makeOut_eq, List.map_map]
    rfl
  have hlength : ∀ n m, (digitsOf numSyms (numChars numParts) n).length =
      (digitsOf numSyms (numChars numParts) m).length := by
    intro n m
    rw [length_digitsOf, length_digitsOf]
  rw [hspelled, hspelled,
    map_lt_map_iff (fun a _ b hb hab => symbolAt_lt hb hab) (fun _ => lt_numSyms_of_mem)
      (fun _ => lt_numSyms_of_mem),
    ← value_lt_value_iff (hlength _ _) (fun _ => lt_numSyms_of_mem)
      (fun _ => lt_numSyms_of_mem),
    value_digitsOf, value_digitsOf]
  rfl

/-- The string of the lowest symbols only. -/
def lowest (numParts : Nat) : Str :=
  List.replicate (numChars numParts) (symbolAt 0)

theorem value_eq_zero_iff
    {base : Nat} (hbase : 0 < base) {digits : List Nat} :
    value base digits = 0 ↔ ∀ digit ∈ digits, digit = 0 := by
  induction digits with
  | nil => simp
  | cons digit digits ih =>
      have hpos : base ^ digits.length ≠ 0 := (Nat.pow_pos hbase).ne'
      rw [value_cons, Nat.add_eq_zero_iff, ih, Nat.mul_eq_zero, or_iff_left hpos,
        List.forall_mem_cons]

theorem makeOut_eq_lowest_iff (numParts pos : Nat) :
    makeOut numParts pos = lowest numParts ↔ position numParts pos % maxVal numParts = 0 := by
  have hvalue := value_digitsOf numSyms (numChars numParts) (position numParts pos)
  have hzero : ∀ digit ∈ digitsOf numSyms (numChars numParts) (position numParts pos),
      symbolAt digit = symbolAt 0 ↔ digit = 0 := by
    intro digit hdigit
    constructor
    · intro heq
      by_contra hne
      have hlt := symbolAt_lt (lt_numSyms_of_mem hdigit) (Nat.pos_of_ne_zero hne)
      rw [heq] at hlt
      exact absurd hlt (Nat.lt_irrefl _)
    · rintro rfl
      rfl
  have hall : makeOut numParts pos = lowest numParts ↔
      ∀ digit ∈ digitsOf numSyms (numChars numParts) (position numParts pos), digit = 0 := by
    rw [lowest, List.eq_replicate_iff, makeOut_eq, List.length_map, length_digitsOf,
      List.forall_mem_map]
    constructor
    · rintro ⟨-, h⟩ digit hdigit
      exact (hzero digit hdigit).mp (h digit hdigit)
    · intro h
      exact ⟨rfl, fun digit hdigit => (hzero digit hdigit).mpr (h digit hdigit)⟩
  rw [hall, ← value_eq_zero_iff (by simp : 0 < numSyms), hvalue]
  rfl

end Symbols

section Spacing

variable {numParts : Nat}

/-- With codes enough for the partitions, the positions are apart. -/
theorem position_lt_position
    (henough : numParts ≤ maxVal numParts) (hparts : 0 < numParts)
    {p q : Nat} (hpq : p < q) :
    position numParts p < position numParts q := by
  have hpos : (0 : ℚ) < numParts := by exact_mod_cast hparts
  unfold position
  rcases henough.lt_or_eq with hmore | heq
  · have hadjust : 1 < adjust numParts := by
      unfold adjust
      rw [lt_div_iff₀ hpos, one_mul]
      exact_mod_cast hmore
    have hp := roundHalfEven_le (p * adjust numParts)
    have hq := le_roundHalfEven (q * adjust numParts)
    have hstep : (p : ℚ) * adjust numParts + adjust numParts ≤ q * adjust numParts := by
      have hle : (p : ℚ) + 1 ≤ q := by exact_mod_cast hpq
      have hmul := mul_le_mul_of_nonneg_right hle (by linarith : 0 ≤ adjust numParts)
      linarith
    have hround : roundHalfEven (p * adjust numParts) < roundHalfEven (q * adjust numParts) := by
      have hcast : (roundHalfEven (p * adjust numParts) : ℚ) <
          roundHalfEven (q * adjust numParts) := by linarith
      exact_mod_cast hcast
    have hnonneg : 0 < roundHalfEven (q * adjust numParts) := by
      have hp0 : (0 : ℚ) ≤ p * adjust numParts := by positivity
      have hcast : (0 : ℚ) < roundHalfEven (q * adjust numParts) := by linarith
      exact_mod_cast hcast
    omega
  · have hadjust : adjust numParts = 1 := by
      unfold adjust
      rw [← heq, div_self hpos.ne']
    have hround : ∀ n : Nat, roundHalfEven (n * adjust numParts) = n := by
      intro n
      rw [hadjust, mul_one]
      exact_mod_cast roundHalfEven_intCast n
    rw [hround, hround]
    omega

theorem position_pos
    (henough : numParts ≤ maxVal numParts) (hparts : 0 < numParts)
    {p : Nat} (hp : 0 < p) :
    0 < position numParts p :=
  Nat.zero_lt_of_lt (position_lt_position henough hparts hp)

theorem position_lt_maxVal
    (henough : numParts ≤ maxVal numParts) {p : Nat} (hp : p < numParts) :
    position numParts p < maxVal numParts := by
  have hparts : 0 < numParts := Nat.zero_lt_of_lt hp
  have hlast := position_lt_position henough hparts hp
  have hall : position numParts numParts = maxVal numParts := by
    have hpos : (0 : ℚ) < numParts := by exact_mod_cast hparts
    unfold position adjust
    rw [mul_div_cancel₀ _ hpos.ne']
    have hround := roundHalfEven_intCast (maxVal numParts)
    rw [Int.cast_natCast] at hround
    rw [hround, Int.toNat_natCast]
  rwa [hall] at hlast

end Spacing

section Splitting

variable {numParts : Nat}

/-- The split points make equal partitions of the keys: there is one less than
partitions, all have the width of a key and are in order, and a key can have any
number of them before it. -/
structure Splits (numParts : Nat) : Prop where
  count : (splitPoints numParts).length = numParts - 1
  width : ∀ s ∈ splitPoints numParts, s.length = numChars numParts
  increasing : (splitPoints numParts).Pairwise fun s t => keyBytes s < keyBytes t
  notLowest : ∀ s ∈ splitPoints numParts, s ≠ lowest numParts
  nonempty : ∀ i < numParts, ∃ key : Str, key.length = numChars numParts ∧
    (∀ c ∈ key, c ∈ symbols) ∧
    (splitPoints numParts).countP (fun s => decide (keyBytes s ≤ keyBytes key)) = i

theorem mem_splitPoints_iff
    {s : Str} :
    s ∈ splitPoints numParts ↔ ∃ pos, 0 < pos ∧ pos < numParts ∧ s = makeOut numParts pos := by
  unfold splitPoints
  rw [List.mem_map]
  constructor
  · rintro ⟨i, hi, rfl⟩
    rw [List.mem_range] at hi
    exact ⟨i + 1, by omega, by omega, rfl⟩
  · rintro ⟨pos, hpos, hlt, rfl⟩
    exact ⟨pos - 1, List.mem_range.mpr (by omega), by rw [Nat.sub_add_cancel hpos]⟩

theorem pairwise_splitPoints_iff :
    ((splitPoints numParts).Pairwise fun s t => keyBytes s < keyBytes t) ↔
      ∀ p q, 0 < p → p < q → q < numParts →
        keyBytes (makeOut numParts p) < keyBytes (makeOut numParts q) := by
  unfold splitPoints
  rw [List.pairwise_map, List.pairwise_iff_getElem]
  simp only [List.length_range, List.getElem_range]
  constructor
  · intro h p q hp hpq hq
    have hpair := h (p - 1) (q - 1) (by omega) (by omega) (by omega)
    rwa [Nat.sub_add_cancel hp, Nat.sub_add_cancel (by omega)] at hpair
  · intro h i j hi hj hij
    exact h (i + 1) (j + 1) (by omega) (by omega) (by omega)

/-- Strings in order need a code each, besides the lowest. -/
theorem le_maxVal_of_splits
    (hparts : 0 < numParts) (h : Splits numParts) :
    numParts ≤ maxVal numParts := by
  have hmax : 0 < maxVal numParts := Nat.pow_pos (by simp)
  have hincreasing := pairwise_splitPoints_iff.mp h.increasing
  have hcode : ∀ pos, pos < numParts → pos ≤ position numParts pos % maxVal numParts := by
    intro pos
    induction pos with
    | zero => exact fun _ => Nat.zero_le _
    | succ pos ih =>
        intro hlt
        rcases Nat.eq_zero_or_pos pos with rfl | hpos
        · refine Nat.one_le_iff_ne_zero.mpr fun hzero => ?_
          exact h.notLowest _ (mem_splitPoints_iff.mpr ⟨1, Nat.one_pos, hlt, rfl⟩)
            ((makeOut_eq_lowest_iff _ _).mpr hzero)
        · have hstep := (makeOut_lt_iff _ _ _).mp
            (hincreasing pos (pos + 1) hpos (Nat.lt_succ_self pos) hlt)
          have hprev := ih (by omega)
          omega
  have hlast := hcode (numParts - 1) (by omega)
  have hbound := Nat.mod_lt (position numParts (numParts - 1)) hmax
  omega

theorem countP_lt_range (i m : Nat) :
    (List.range m).countP (fun j => decide (j < i)) = min i m := by
  induction m with
  | zero => simp
  | succ m ih =>
      rw [List.range_succ, List.countP_append, ih, List.countP_singleton]
      split
      · next h =>
          rw [decide_eq_true_eq] at h
          omega
      · next h =>
          rw [decide_eq_true_eq] at h
          omega

theorem symbolAt_mem
    {digit : Nat} (h : digit < numSyms) :
    symbolAt digit ∈ symbols := by
  have hlt : digit < symbols.length := h
  rw [symbolAt, List.getD_eq_getElem _ _ hlt]
  exact List.getElem_mem hlt

theorem splits_of_le_maxVal
    (hparts : 0 < numParts) (henough : numParts ≤ maxVal numParts) :
    Splits numParts := by
  have hcode : ∀ p < numParts, position numParts p % maxVal numParts = position numParts p :=
    fun p hp => Nat.mod_eq_of_lt (position_lt_maxVal henough hp)
  have hlt_iff : ∀ p < numParts, ∀ q < numParts,
      keyBytes (makeOut numParts p) < keyBytes (makeOut numParts q) ↔ p < q := by
    intro p hp q hq
    rw [makeOut_lt_iff, hcode p hp, hcode q hq]
    constructor
    · intro hlt
      by_contra hle
      rcases (Nat.not_lt.mp hle).lt_or_eq with hqp | rfl
      · exact absurd hlt (position_lt_position henough hparts hqp).not_gt
      · exact absurd hlt (Nat.lt_irrefl _)
    · exact position_lt_position henough hparts
  refine ⟨by simp [splitPoints], ?_, ?_, ?_, ?_⟩
  · intro s hs
    obtain ⟨pos, -, -, rfl⟩ := mem_splitPoints_iff.mp hs
    exact length_makeOut numParts pos
  · rw [pairwise_splitPoints_iff]
    intro p q _ hpq hq
    exact (hlt_iff p (hpq.trans hq) q hq).mpr hpq
  · intro s hs
    obtain ⟨pos, hpos, hlt, rfl⟩ := mem_splitPoints_iff.mp hs
    rw [ne_eq, makeOut_eq_lowest_iff, hcode pos hlt]
    exact (position_pos henough hparts hpos).ne'
  · intro i hi
    refine ⟨makeOut numParts i, length_makeOut numParts i, ?_, ?_⟩
    · intro c hc
      rw [makeOut_eq, List.mem_map] at hc
      obtain ⟨digit, hdigit, rfl⟩ := hc
      exact symbolAt_mem (lt_numSyms_of_mem hdigit)
    · have hcount : (splitPoints numParts).countP
          (fun s => decide (keyBytes s ≤ keyBytes (makeOut numParts i))) =
            (List.range (numParts - 1)).countP fun j => decide (j < i) := by
        unfold splitPoints
        rw [List.countP_map]
        refine List.countP_congr ?_
        intro j hj
        rw [List.mem_range] at hj
        rw [Function.comp_apply, decide_eq_true_eq, decide_eq_true_eq, ← not_lt,
          hlt_iff i hi (j + 1) (by omega)]
        omega
      rw [hcount, countP_lt_range]
      omega

end Splitting

section Counts

/-- `NUMCHARS` is one more than the nearest integer to the root. -/
theorem nearestRoot_spec
    {degree n : Nat} (hdegree : degree ≠ 0) (hn : 0 < n) :
    1 ≤ nearestRoot degree n ∧
      (2 * nearestRoot degree n - 1) ^ degree ≤ 2 ^ degree * n ∧
      2 ^ degree * n < (2 * nearestRoot degree n + 1) ^ degree := by
  have hone : (2 * 1 - 1) ^ degree ≤ 2 ^ degree * n := by
    rw [Nat.one_pow]
    exact Nat.mul_pos (Nat.pow_pos (by omega)) hn
  have hpos : 1 ≤ nearestRoot degree n := Nat.le_findGreatest hn hone
  have hlow : (2 * nearestRoot degree n - 1) ^ degree ≤ 2 ^ degree * n :=
    Nat.findGreatest_spec (P := fun k => (2 * k - 1) ^ degree ≤ 2 ^ degree * n) hn hone
  refine ⟨hpos, hlow, ?_⟩
  by_contra hle
  have hnext : (2 * (nearestRoot degree n + 1) - 1) ^ degree ≤ 2 ^ degree * n := by
    rw [show 2 * (nearestRoot degree n + 1) - 1 = 2 * nearestRoot degree n + 1 by omega]
    exact Nat.not_lt.mp hle
  rcases Nat.lt_or_ge (nearestRoot degree n) n with hlt | hge
  · exact Nat.findGreatest_is_greatest (P := fun k => (2 * k - 1) ^ degree ≤ 2 ^ degree * n)
      (Nat.lt_succ_self _) hlt hnext
  · -- The root would be the number itself, whose power is too large.
    have hless : (2 * n + 1) ^ degree ≤ (2 * nearestRoot degree n + 1) ^ degree :=
      Nat.pow_le_pow_left (by omega) degree
    have hbig : 2 ^ degree * n < (2 * n + 1) ^ degree := by
      calc 2 ^ degree * n ≤ 2 ^ degree * n ^ degree :=
            Nat.mul_le_mul_left _ (Nat.le_self_pow hdegree n)
        _ = (2 * n) ^ degree := (Nat.mul_pow 2 n degree).symm
        _ < (2 * n + 1) ^ degree := Nat.pow_lt_pow_left (by omega) hdegree
    omega

/-- From the root 63 on the strings outnumber the partitions: one symbol more gives 64
times as many of them. -/
theorem pow_le_strings
    {root : Nat} (hroot : 63 ≤ root) :
    (2 * root + 1) ^ 64 ≤ 2 ^ 64 * 64 ^ (root + 1) := by
  induction root, hroot using Nat.le_induction with
  | base => norm_num
  | succ root hroot ih =>
      have hratio : (127 * (2 * (root + 1) + 1)) ^ 64 ≤ (129 * (2 * root + 1)) ^ 64 :=
        Nat.pow_le_pow_left (by omega) 64
      rw [Nat.mul_pow, Nat.mul_pow] at hratio
      have hfactor : 129 ^ 64 ≤ 64 * 127 ^ 64 := by norm_num
      have hstep : (2 * (root + 1) + 1) ^ 64 ≤ 64 * (2 * root + 1) ^ 64 := by
        refine Nat.le_of_mul_le_mul_left (hratio.trans ?_) (Nat.pow_pos (by omega) : 0 < 127 ^ 64)
        calc 129 ^ 64 * (2 * root + 1) ^ 64 ≤ 64 * 127 ^ 64 * (2 * root + 1) ^ 64 :=
              Nat.mul_le_mul_right _ hfactor
          _ = 127 ^ 64 * (64 * (2 * root + 1) ^ 64) := by ring
      calc (2 * (root + 1) + 1) ^ 64 ≤ 64 * (2 * root + 1) ^ 64 := hstep
        _ ≤ 64 * (2 ^ 64 * 64 ^ (root + 1)) := Nat.mul_le_mul_left 64 ih
        _ = 2 ^ 64 * 64 ^ (root + 1 + 1) := by ring

/-- Between the roots 2 and 62 there are too few strings. -/
theorem strings_lt_pow :
    ∀ root < 63, 2 ≤ root → 2 ^ 64 * 64 ^ (root + 1) < (2 * root - 1) ^ 64 := by
  decide +kernel

/-- The strings of the width that the script takes are enough for up to 4096
partitions, and again for more than the 64th power of 62.5. -/
theorem le_maxVal_iff
    {numParts : Nat} (hparts : 0 < numParts) :
    numParts ≤ maxVal numParts ↔ numParts ≤ 4096 ∨ 125 ^ 64 < 2 ^ 64 * numParts := by
  obtain ⟨hone, hlow, hhigh⟩ := nearestRoot_spec (by omega : (64 : Nat) ≠ 0) hparts
  have hmax : maxVal numParts = 64 ^ (nearestRoot 64 numParts + 1) := by
    unfold maxVal numChars
    rw [numSyms_eq, Nat.add_comm]
  rw [hmax]
  generalize nearestRoot 64 numParts = root at hone hlow hhigh
  rcases Nat.lt_or_ge root 63 with hless | hmany
  · have htop : (2 * root + 1) ^ 64 ≤ 125 ^ 64 := Nat.pow_le_pow_left (by omega) 64
    rcases hone.lt_or_eq with htwo | rfl
    · have hfew := strings_lt_pow root hless htwo
      have hwidth : 64 ^ 2 ≤ 64 ^ (root + 1) := Nat.pow_le_pow_right (by omega) (by omega)
      norm_num at hwidth
      omega
    · norm_num at htop ⊢
      omega
  · have henough := pow_le_strings hmany
    have hbottom : 125 ^ 64 ≤ (2 * root - 1) ^ 64 := Nat.pow_le_pow_left (by omega) 64
    norm_num at hbottom ⊢
    omega

end Counts

end SplitString
end YdbSnippets

import YdbSnippets.Effects.Program

/-!
# Listings in pages

A service that lists its items in pages answers a token with some of the items
and the token of what follows.  A reader asks from the first token on until the
service answers with the first token again, and adds each page to what it has.

The tokens say nothing but where the next page starts, and the pages are as long
as the service likes.
-/

namespace YdbSnippets
namespace Effects
namespace Pages

variable {S : Signature}
variable {ε α β σ τ : Type}

/-- A page of the items from position `k` on, and the next token. -/
inductive PageAt (tokenAt : Nat → τ) (items : List α) (k : Nat) : List α → τ → Prop
  | last : PageAt tokenAt items k (items.drop k) (tokenAt 0)
  | more
      (n : Nat)
      (hnext : tokenAt (k + n) ≠ tokenAt 0) :
      PageAt tokenAt items k ((items.drop k).take n) (tokenAt (k + n))

/-- Read the pages from a token on.  `fuel` bounds their number; `stuck` is what
becomes of a reader that would go on. -/
def readPages [DecidableEq τ]
    (page : τ → Program S ε (List α × τ)) (add : β → List α → Except ε β)
    (first : τ) (stuck : Program S ε β) :
    Nat → τ → β → Program S ε β
  | 0, _, _ => stuck
  | fuel + 1, token, acc =>
      (page token).bind fun answer =>
        match add acc answer.1 with
        | .error e => .raise e
        | .ok acc =>
            if answer.2 = first then .pure acc
            else readPages page add first stuck fuel answer.2 acc

/-- The result of a reader that adds the pages of the items to `acc`. -/
def ReadsAll
    (add : β → List α → Except ε β) (acc : β) (items : List α) (r : Except ε β) : Prop :=
  ∀ b, r = .ok b → ∃ pages : List (List α), pages.flatten = items ∧
    pages.foldlM add acc = .ok b

/-- A reader that keeps an invariant gets all items, whatever the pages are. -/
theorem safe_readPages [DecidableEq τ]
    {env : Environment S ε σ} {I : σ → Prop}
    {page : τ → Program S ε (List α × τ)} {add : β → List α → Except ε β}
    {stuck : Program S ε β} {tokenAt : Nat → τ} (items : List α)
    (hpage : ∀ k s, I s → Safe env I
      (fun r _ => ∀ answer, r = .ok answer → PageAt tokenAt items k answer.1 answer.2)
      (page (tokenAt k)) s)
    (hstuck : ∀ s, I s → Safe env I (fun r _ => ∀ b, r ≠ .ok b) stuck s)
    (fuel k : Nat) (acc : β) {s : σ} (hs : I s) :
    Safe env I (fun r _ => ReadsAll add acc (items.drop k) r)
      (readPages page add (tokenAt 0) stuck fuel (tokenAt k) acc) s := by
  induction fuel generalizing k acc s with
  | zero => exact (hstuck s hs).weaken fun r _ _ hr b hb => absurd hb (hr b)
  | succ fuel ih =>
      refine Safe.bind ((hpage k s hs).weaken ?_)
      intro r s hs hr
      cases r with
      | error e =>
          intro b hb
          cases hb
      | ok answer =>
          have hanswer := hr answer rfl
          change Safe env I _ (match add acc answer.1 with
            | .error e => .raise e
            | .ok acc => if answer.2 = tokenAt 0 then .pure acc
                else readPages page add (tokenAt 0) stuck fuel answer.2 acc) s
          cases hadd : add acc answer.1 with
          | error e =>
              refine ⟨hs, ?_⟩
              intro b hb
              cases hb
          | ok acc' =>
              have hfold : ∀ pages b, pages.foldlM add acc' = .ok b →
                  (answer.1 :: pages).foldlM add acc = .ok b := by
                intro pages b hb
                rw [List.foldlM_cons, hadd]
                exact hb
              obtain ⟨items', token⟩ := answer
              cases hanswer with
              | last =>
                  dsimp only
                  rw [if_pos rfl]
                  refine ⟨hs, ?_⟩
                  intro b hb
                  cases hb
                  exact ⟨[items.drop k], by simp, hfold [] acc' rfl⟩
              | more n hnext =>
                  dsimp only
                  rw [if_neg hnext]
                  refine (ih (k + n) acc' hs).weaken ?_
                  intro r s _ hr b hb
                  obtain ⟨pages, hflatten, hpages⟩ := hr b hb
                  refine ⟨(items.drop k).take n :: pages, ?_, hfold pages b hpages⟩
                  rw [List.flatten_cons, hflatten, ← List.drop_drop, List.take_append_drop]

/-- Adding a list does what adding its parts does. -/
structure Additive (add : β → List α → Except ε β) : Prop where
  nil : ∀ acc, add acc [] = .ok acc
  append : ∀ acc xs ys, add acc (xs ++ ys) = add acc xs >>= fun acc => add acc ys

theorem additive_append :
    Additive fun (acc page : List α) => (.ok (acc ++ page) : Except ε (List α)) := by
  refine ⟨fun acc => by rw [List.append_nil], fun acc xs ys => ?_⟩
  rw [← List.append_assoc]
  rfl

theorem Additive.foldlM_eq
    {add : β → List α → Except ε β}
    (h : Additive add) (acc : β) (pages : List (List α)) :
    pages.foldlM add acc = add acc pages.flatten := by
  induction pages generalizing acc with
  | nil => exact (h.nil acc).symm
  | cons page pages ih =>
      rw [List.foldlM_cons, List.flatten_cons, h.append]
      exact bind_congr ih

/-- How a service cuts its pages makes no difference to such a reader. -/
theorem Additive.eq_of_readsAll
    {add : β → List α → Except ε β} {acc b : β} {items : List α}
    (h : Additive add) (hr : ReadsAll add acc items (.ok b)) :
    add acc items = .ok b := by
  obtain ⟨pages, rfl, hpages⟩ := hr b rfl
  rw [← h.foldlM_eq, hpages]

end Pages
end Effects
end YdbSnippets

import YdbSnippets.Tokens.TokenFile

/-!
# Refreshes of the token

Any number of scripts refresh the token at the same time.  After one of them has
written something, none writes again for five minutes, less what the time of the file
may lag behind the clock; the file is never left with a mix of two tokens, and none of
the scripts ends with the lock held.

Nobody looks at how much of a token was written, so that a part of one is kept as long
as a whole one, and a write of nothing is followed by the next one at once.
-/

namespace YdbSnippets
namespace Tokens

open Effects Python TokenProgram

section Soundness

variable {κ : Type}

/-- The file as the writes have left it, since `s₀`. -/
structure Sound (lag : Nat) (s₀ s : TokenWorld κ) : Prop where
  opened : s.holder.isSome = true → s.file.isSome = true
  missing : s.file = none → s.saved = []
  empty : ∀ f, s.file = some f → f.content = [] →
    ∀ save ∈ s.saved, 0 < save.count → save.time + tokenMaxAge ≤ s.now + lag
  written : ∀ f, s.file = some f → f.content ≠ [] →
    (s.saved = [] ∧ s₀.file = some f) ∨
      ∃ last rest, s.saved = last :: rest ∧ f.content = last.written ∧
        f.mtime ≤ last.time ∧ last.time ≤ f.mtime + lag
  tokens : ∀ save ∈ s.saved, save.count ≤ save.data.length ∧
    ∃ token, token ≠ [] ∧ save.data = encode (token ++ ['\n'])
  past : ∀ save ∈ s.saved, save.time ≤ s.now
  spaced : s.saved.Pairwise fun newer older =>
    0 < older.count → older.time + tokenMaxAge ≤ newer.time + lag
  once : (s.saved.map Save.fd).Nodup

/-- What the script with the descriptor `fd` relies on. -/
structure LeavesAlone (lag : Nat) (s₀ : TokenWorld κ) (fd : κ) (s s' : TokenWorld κ) : Prop where
  sound : Sound lag s₀ s → Sound lag s₀ s'
  later : s.now ≤ s'.now
  held : s.holder = some fd → s'.holder = some fd ∧ s'.file = s.file ∧ s'.saved = s.saved
  free : s.holder ≠ some fd → s'.holder ≠ some fd
  kept : s.file.isSome = true → s'.file.isSome = true
  own : ∀ save : Save κ, save.fd = fd → (save ∈ s'.saved ↔ save ∈ s.saved)

/-- A script guarantees to each other one what that one relies on. -/
abbrev tokenContract (lag : Nat) (s₀ : TokenWorld κ) (fd : κ) : Contract (TokenWorld κ) :=
  Contract.among (LeavesAlone lag s₀) fd

variable {lag : Nat} {s₀ s s' : TokenWorld κ} {fd : κ}

theorem LeavesAlone.refl (lag : Nat) (s₀ : TokenWorld κ) (fd : κ) (s : TokenWorld κ) :
    LeavesAlone lag s₀ fd s s :=
  ⟨id, le_refl _, fun h => ⟨h, rfl, rfl⟩, id, id, fun _ _ => Iff.rfl⟩

/-- No script has to do with the time. -/
theorem Sound.passes
    (h : Sound lag s₀ s) {now : Nat} (hnow : s.now ≤ now) :
    Sound lag s₀ { s with now := now } where
  opened := h.opened
  missing := h.missing
  empty f hf hempty save hsave hcount :=
    (h.empty f hf hempty save hsave hcount).trans (Nat.add_le_add_right hnow lag)
  written := h.written
  tokens := h.tokens
  past save hsave := (h.past save hsave).trans hnow
  spaced := h.spaced
  once := h.once

theorem leavesAlone_of_passes
    (h : Passes s s') :
    LeavesAlone lag s₀ fd s s' := by
  obtain ⟨now, hnow, rfl⟩ := h
  exact ⟨fun hsound => hsound.passes hnow, hnow, fun h => ⟨h, rfl, rfl⟩, id, id,
    fun _ _ => Iff.rfl⟩

/-- The lock is given or given up. -/
theorem Sound.with_holder
    {holder : Option κ}
    (h : Sound lag s₀ s) (hopened : holder.isSome = true → s.file.isSome = true) :
    Sound lag s₀ { s with holder := holder } :=
  ⟨hopened, h.missing, h.empty, h.written, h.tokens, h.past, h.spaced, h.once⟩

/-- A step that only moves the lock from or to one script. -/
theorem leavesAlone_of_holder
    {holder : Option κ} (k : κ)
    (hopened : holder.isSome = true → s.file.isSome = true)
    (hheld : s.holder = some k → holder = some k) (hfree : holder = some k → s.holder = some k) :
    LeavesAlone lag s₀ k s { s with holder := holder } where
  sound h := h.with_holder hopened
  later := le_refl _
  held h := ⟨hheld h, rfl, rfl⟩
  free h := fun heq => h (hfree heq)
  kept := id
  own _ _ := Iff.rfl

end Soundness

/-! ## What a script knows -/

section Knowledge

variable {κ : Type}

/-- The script does not have the lock. -/
structure Outside (lag : Nat) (s₀ : TokenWorld κ) (fd : κ) (s : TokenWorld κ) : Prop where
  sound : Sound lag s₀ s
  free : s.holder ≠ some fd

/-- The script has the lock. -/
structure Inside (lag : Nat) (s₀ : TokenWorld κ) (fd : κ) (s : TokenWorld κ) : Prop where
  sound : Sound lag s₀ s
  held : s.holder = some fd

/-- There is a file, and the script has not written to it. -/
structure Unsaved (fd : κ) (s : TokenWorld κ) : Prop where
  exists_file : s.file.isSome = true
  unsaved : ∀ save ∈ s.saved, save.fd ≠ fd

/-- What was saved is no longer fresh, as far as anything was. -/
def Stale (lag : Nat) (s : TokenWorld κ) : Prop :=
  ∀ save ∈ s.saved, 0 < save.count → save.time + tokenMaxAge ≤ s.now + lag

/-- The script has written a token. -/
def SavedBy (fd : κ) (s : TokenWorld κ) : Prop :=
  ∃ save ∈ s.saved, save.fd = fd

/-- The script returns whether it has written a token. -/
def Tells (fd : κ) (r : Except Failure Bool) (s : TokenWorld κ) : Prop :=
  ∀ b, r = .ok b → (b = true ↔ SavedBy fd s)

variable {lag : Nat} {s₀ : TokenWorld κ} {fd : κ} {A B : TokenWorld κ → Prop}

/-- A file that is not fresh was saved long ago. -/
theorem Sound.stale
    {s : TokenWorld κ} {f : TokenFile}
    (h : Sound lag s₀ s) (hfile : s.file = some f)
    (hold : f.content = [] ∨ f.mtime + tokenMaxAge ≤ s.now) :
    Stale lag s := by
  by_cases hempty : f.content = []
  · exact h.empty f hfile hempty
  · rcases h.written f hfile hempty with ⟨hnone, -⟩ | ⟨last, rest, hsaved, -, -, hlag⟩
    · intro save hsave
      rw [hnone] at hsave
      cases hsave
    · have hold := hold.resolve_left hempty
      have hpast := h.past last (hsaved ▸ List.mem_cons_self)
      intro save hsave hcount
      rw [hsaved] at hsave
      rcases List.mem_cons.mp hsave with rfl | hmem
      · omega
      · have hspaced := h.spaced
        rw [hsaved, List.pairwise_cons] at hspaced
        have hbefore := hspaced.1 save hmem hcount
        omega

theorem known_outside (lag : Nat) (s₀ : TokenWorld κ) (fd : κ) :
    (tokenContract lag s₀ fd).Known (Sound lag s₀) (Outside lag s₀ fd) :=
  ⟨fun _ _ h hrely => ⟨hrely.sound h.sound, hrely.free h.free⟩, fun _ h => h.sound⟩

theorem known_inside (lag : Nat) (s₀ : TokenWorld κ) (fd : κ) :
    (tokenContract lag s₀ fd).Known (Sound lag s₀) (Inside lag s₀ fd) :=
  ⟨fun _ _ h hrely => ⟨hrely.sound h.sound, (hrely.held h.held).1⟩, fun _ h => h.sound⟩

theorem stable_unsaved (lag : Nat) (s₀ : TokenWorld κ) (fd : κ) :
    (tokenContract lag s₀ fd).Stable (Unsaved fd) :=
  fun _ _ h hrely => ⟨hrely.kept h.exists_file,
    fun save hsave heq => h.unsaved save ((hrely.own save heq).mp hsave) heq⟩

theorem stable_savedBy (lag : Nat) (s₀ : TokenWorld κ) (fd : κ) :
    (tokenContract lag s₀ fd).Stable (SavedBy fd) :=
  fun _ _ ⟨save, hsave, heq⟩ hrely => ⟨save, (hrely.own save heq).mpr hsave, heq⟩

theorem stable_tells (lag : Nat) (s₀ : TokenWorld κ) (fd : κ) (r : Except Failure Bool) :
    (tokenContract lag s₀ fd).Stable (Tells fd r) := by
  intro s s' h hrely b hb
  rw [h b hb]
  exact exists_congr fun save =>
    ⟨fun hsave => ⟨(hrely.own save hsave.2).mpr hsave.1, hsave.2⟩,
      fun hsave => ⟨(hrely.own save hsave.2).mp hsave.1, hsave.2⟩⟩

/-- While the script has the lock, the file and what was saved stay as they are. -/
theorem known_inside_and
    (hknown : (tokenContract lag s₀ fd).Known (Sound lag s₀) A)
    (hinside : ∀ s, A s → s.holder = some fd)
    (hB : ∀ s s', B s → s'.file = s.file → s'.saved = s.saved → s.now ≤ s'.now → B s') :
    (tokenContract lag s₀ fd).Known (Sound lag s₀) fun s => A s ∧ B s := by
  refine ⟨fun s s' hs hrely => ⟨hknown.stable s s' hs.1 hrely, ?_⟩, fun s hs => hknown.inv s hs.1⟩
  obtain ⟨-, hfile, hsaved⟩ := hrely.held (hinside s hs.1)
  exact hB s s' hs.2 hfile hsaved hrely.later

theorem stale_of_same
    (s s' : TokenWorld κ) (h : Stale lag s) (hsaved : s'.saved = s.saved) (hnow : s.now ≤ s'.now) :
    Stale lag s' :=
  fun save hsave hcount =>
    (h save (hsaved ▸ hsave) hcount).trans (Nat.add_le_add_right hnow lag)

/-- The script has the lock and has not written yet. -/
abbrev Locked (lag : Nat) (s₀ : TokenWorld κ) (fd : κ) (s : TokenWorld κ) : Prop :=
  Inside lag s₀ fd s ∧ Unsaved fd s

theorem known_locked (lag : Nat) (s₀ : TokenWorld κ) (fd : κ) :
    (tokenContract lag s₀ fd).Known (Sound lag s₀) (Locked lag s₀ fd) :=
  (known_inside lag s₀ fd).and (stable_unsaved lag s₀ fd)

theorem known_stale (lag : Nat) (s₀ : TokenWorld κ) (fd : κ) :
    (tokenContract lag s₀ fd).Known (Sound lag s₀) fun s => Locked lag s₀ fd s ∧ Stale lag s :=
  known_inside_and (known_locked lag s₀ fd) (fun _ h => h.1.held)
    fun s s' h _ hsaved hnow => stale_of_same s s' h hsaved hnow

end Knowledge

section Writes

variable {κ : Type} {lag : Nat} {s₀ s : TokenWorld κ} {fd : κ}

/-- The file is opened, and created if there was none. -/
theorem sound_openFile
    (h : Sound lag s₀ s) (mtime : Nat) :
    Sound lag s₀ { s with file := some (s.file.getD ⟨[], mtime⟩) } where
  opened _ := rfl
  missing hnone := by cases hnone
  empty f hf hempty := by
    cases hfile : s.file with
    | none =>
        intro save hsave
        rw [h.missing hfile] at hsave
        cases hsave
    | some old =>
        simp only [hfile, Option.getD_some] at hf
        exact h.empty f (hfile.trans hf) hempty
  written f hf hne := by
    cases hfile : s.file with
    | none =>
        simp only [hfile, Option.getD_none] at hf
        cases hf
        exact absurd rfl hne
    | some old =>
        simp only [hfile, Option.getD_some] at hf
        exact h.written f (hfile.trans hf) hne
  tokens := h.tokens
  past := h.past
  spaced := h.spaced
  once := h.once

theorem leavesAlone_of_openFile
    (k : κ) (h : Sound lag s₀ s) (mtime : Nat) :
    LeavesAlone lag s₀ k s { s with file := some (s.file.getD ⟨[], mtime⟩) } where
  sound _ := sound_openFile h mtime
  later := le_refl _
  held hheld := by
    obtain ⟨f, hf⟩ := Option.isSome_iff_exists.mp (h.opened (by rw [hheld]; rfl))
    exact ⟨hheld, by rw [hf]; rfl, rfl⟩
  free := id
  kept _ := rfl
  own _ _ := Iff.rfl

/-- The file is truncated. -/
theorem sound_ftruncate
    (h : Sound lag s₀ s) (hstale : Stale lag s) (mtime : Nat) :
    Sound lag s₀ { s with file := s.file.map fun _ => ⟨[], mtime⟩ } where
  opened hheld := by simpa using h.opened hheld
  missing hnone := h.missing (Option.map_eq_none_iff.mp hnone)
  empty _ _ _ := hstale
  written f hf hne := by
    obtain ⟨old, -, rfl⟩ := Option.map_eq_some_iff.mp hf
    exact absurd rfl hne
  tokens := h.tokens
  past := h.past
  spaced := h.spaced
  once := h.once

/-- A token is written to the truncated file, or a part of one. -/
theorem sound_write
    {token : Str} {before mtime count : Nat}
    (h : Sound lag s₀ s) (hstale : Stale lag s) (hunsaved : ∀ save ∈ s.saved, save.fd ≠ fd)
    (hfile : s.file = some ⟨[], before⟩) (htoken : token ≠ [])
    (hcount : count ≤ (encode (token ++ ['\n'])).length) (hmtime : s.Stamps lag mtime) :
    Sound lag s₀ { s with
      file := s.file.map fun f =>
        ⟨(encode (token ++ ['\n'])).take count ++ f.content.drop count, mtime⟩
      saved := ⟨fd, encode (token ++ ['\n']), count, s.now⟩ :: s.saved } where
  opened hheld := by simpa using h.opened hheld
  missing hnone := by
    rw [hfile] at hnone
    cases hnone
  empty f hf hempty := by
    rw [hfile] at hf
    cases hf
    refine List.forall_mem_cons.mpr ⟨fun hpos => ?_, hstale⟩
    -- something was written, so that the file is not empty
    have hlength := congrArg List.length hempty
    simp only [List.length_append, List.length_take, List.length_nil] at hlength
    have hpos : 0 < count := hpos
    omega
  written f hf _ := by
    rw [hfile] at hf
    cases hf
    exact Or.inr ⟨_, _, rfl, by simp [Save.written], hmtime.1, hmtime.2⟩
  tokens := List.forall_mem_cons.mpr ⟨⟨hcount, token, htoken, rfl⟩, h.tokens⟩
  past := List.forall_mem_cons.mpr ⟨le_refl _, h.past⟩
  spaced := List.pairwise_cons.mpr ⟨hstale, h.spaced⟩
  once := by
    refine List.nodup_cons.mpr ⟨fun hmem => ?_, h.once⟩
    obtain ⟨save, hsave, heq⟩ := List.mem_map.mp hmem
    exact hunsaved save hsave heq

/-- What is written under the lock of one script concerns no other one. -/
theorem leavesAlone_of_written
    {file : Option TokenFile} {saved : List (Save κ)} {k : κ}
    (hk : k ≠ fd) (hheld : s.holder = some fd)
    (hsound : Sound lag s₀ { s with file := file, saved := saved })
    (hkept : s.file.isSome = true → file.isSome = true)
    (hown : ∀ save : Save κ, save.fd ≠ fd → (save ∈ saved ↔ save ∈ s.saved)) :
    LeavesAlone lag s₀ k s { s with file := file, saved := saved } where
  sound _ := hsound
  later := le_refl _
  held h := absurd (Option.some.inj (h.symm.trans hheld)) hk
  free := id
  kept := hkept
  own save hsave := hown save fun heq => hk (hsave ▸ heq)

end Writes

section Login

variable {κ : Type}

theorem uses_loginLoop (n : Nat) :
    (loginLoop n : TokenProgram κ Str).Uses (· = TokenOp.post) := by
  induction n with
  | zero => trivial
  | succ n ih =>
      refine Program.uses_tryCatch ?_ fun e => ?_
      · exact Program.uses_bind (Program.uses_perform rfl) fun _ => Program.uses_ofExcept _
      · split
        · exact ih
        · trivial

theorem tokenOf_ne_nil
    {response : LoginResponse} {token : Str} (h : tokenOf response = .ok token) :
    token ≠ [] := by
  unfold tokenOf at h
  split at h
  · cases h
  · split at h
    · cases h
    · next hne =>
        cases h
        exact hne

/-- A token that was obtained is not empty. -/
def NonEmpty (r : Except Failure Str) : Prop :=
  ∀ token, r = .ok token → token ≠ []

theorem returns_loginLoop (n : Nat) :
    (loginLoop n : TokenProgram κ Str).Returns NonEmpty := by
  induction n with
  | zero => exact fun token h => by cases h
  | succ n ih =>
      intro r
      have herror : ∀ e : Failure,
          (if e.isRepeated then loginLoop n else throw e : TokenProgram κ Str).Returns
            NonEmpty := by
        intro e
        split
        · exact ih
        · exact fun token h => by cases h
      cases r with
      | error e => exact herror e
      | ok response =>
          change ((Program.ofExcept (tokenOf response)).tryCatch _).Returns NonEmpty
          cases htoken : tokenOf response with
          | error e => exact herror e
          | ok token =>
              intro token' h
              cases h
              exact tokenOf_ne_nil htoken

end Login

/-! ## One script among others -/

section Steps

variable {κ α : Type} [DecidableEq κ]
variable {lag : Nat} {s₀ s : TokenWorld κ} {fd : κ} {A : TokenWorld κ → Prop}
variable {Q : Except Failure α → TokenWorld κ → Prop}

/-- The file is sound at every moment of the script, and `Q` holds of its outcome. -/
abbrev KeepsToken (lag : Nat) (s₀ : TokenWorld κ) (fd : κ)
    (Q : Except Failure α → TokenWorld κ → Prop) :
    TokenProgram κ α → TokenWorld κ → Prop :=
  Keeps (host lag) (tokenContract lag s₀ fd) (Sound lag s₀) Q

theorem eq_of_host_error
    {op : TokenOp κ} {e : Failure} {s' : TokenWorld κ}
    (h : host lag s op (.error e) s') :
    s' = s := by
  rcases h with hdone | ⟨-, -, hsame⟩
  · cases op with
    | post =>
        obtain ⟨⟨response, h⟩, -⟩ := hdone
        cases h
    | lock fd => cases hdone.2.1
    | write fd data =>
        obtain ⟨count, mtime, h, -⟩ := hdone
        cases h
    | _ => cases hdone.1
  · exact hsame

/-- An operation and what follows.  Where it fails the script goes no further. -/
theorem keepsToken_call
    {op : TokenOp κ} {next : Except Failure ((tokenSignature κ).Answer op) → TokenProgram κ α}
    (hknown : (tokenContract lag s₀ fd).Known (Sound lag s₀) A) (hA : A s)
    (hnext : ∀ e, next (.error e) = .raise e)
    (hQ : ∀ e s, A s → Q (.error e) s)
    (hop : ∀ s a s', A s → Carried lag s op (.ok a) s' →
      (∀ k, k ≠ fd → LeavesAlone lag s₀ k s s') ∧ KeepsToken lag s₀ fd Q (next (.ok a)) s') :
    KeepsToken lag s₀ fd Q (.call op next) s := by
  refine Keeps.callOk hknown hA (fun s k _ => LeavesAlone.refl lag s₀ k s)
    (fun s e s' => eq_of_host_error) hnext hQ fun s a s' hs henv => ?_
  rcases henv with hdone | ⟨-, ⟨e, he⟩, -⟩
  · exact hop s a s' hs hdone
  · cases he

theorem keepsToken_perform
    {op : TokenOp κ} {f : (tokenSignature κ).Answer op → TokenProgram κ α}
    (hknown : (tokenContract lag s₀ fd).Known (Sound lag s₀) A) (hA : A s)
    (hQ : ∀ e s, A s → Q (.error e) s)
    (hop : ∀ s a s', A s → Carried lag s op (.ok a) s' →
      (∀ k, k ≠ fd → LeavesAlone lag s₀ k s s') ∧ KeepsToken lag s₀ fd Q (f a) s') :
    KeepsToken lag s₀ fd Q ((Program.perform op).bind f) s :=
  keepsToken_call hknown hA (fun _ => rfl) hQ hop

/-- An operation that changes nothing. -/
theorem keepsToken_quiet
    {op : TokenOp κ} {f : (tokenSignature κ).Answer op → TokenProgram κ α}
    (hquiet : ∀ s a s', Carried lag s op (.ok a) s' → s' = s)
    (hknown : (tokenContract lag s₀ fd).Known (Sound lag s₀) A) (hA : A s)
    (hQ : ∀ e s, A s → Q (.error e) s)
    (hop : ∀ s a, A s → Carried lag s op (.ok a) s → KeepsToken lag s₀ fd Q (f a) s) :
    KeepsToken lag s₀ fd Q ((Program.perform op).bind f) s := by
  refine keepsToken_perform hknown hA hQ fun s a s' hs hdone => ?_
  obtain rfl := hquiet s a s' hdone
  exact ⟨fun k _ => LeavesAlone.refl lag s₀ k s', hop s' a hs hdone⟩

/-- `token_is_fresh`, under the lock -/
theorem keepsToken_tokenIsFresh
    (hs : Locked lag s₀ fd s) :
    KeepsToken lag s₀ fd
      (fun r s => Locked lag s₀ fd s ∧ (r = .ok false → Stale lag s)) tokenIsFresh s := by
  have hQ : ∀ (e : Failure) s, Locked lag s₀ fd s →
      Locked lag s₀ fd s ∧ ((.error e : Except Failure Bool) = .ok false → Stale lag s) :=
    fun e s h => ⟨h, fun hb => by cases hb⟩
  have hstale : ∀ s, Locked lag s₀ fd s → Stale lag s →
      KeepsToken lag s₀ fd (fun r s => Locked lag s₀ fd s ∧ (r = .ok false → Stale lag s))
        (Program.pure false) s :=
    fun s h hold => Keeps.ended (r := .ok false) (known_stale lag s₀ fd).stable ⟨h, hold⟩
      (known_stale lag s₀ fd).inv fun s h => ⟨h.1, fun _ => h.2⟩
  refine keepsToken_quiet (fun _ _ _ h => h.2) (known_locked lag s₀ fd) hs hQ fun s st h hdone => ?_
  obtain rfl := Except.ok.inj hdone.1
  cases hfile : s.file with
  | none =>
      refine hstale s h fun save hsave => ?_
      rw [h.1.sound.missing hfile] at hsave
      cases hsave
  | some f =>
      simp only [Option.map_some]
      split
      · next hsize =>
          exact hstale s h (h.1.sound.stale hfile (Or.inl (List.length_eq_zero_iff.mp hsize)))
      · have hknown := known_inside_and (B := fun s => s.file = some f) (known_locked lag s₀ fd)
          (fun _ h => h.1.held) fun s s' h hfile _ _ => hfile.trans h
        refine keepsToken_quiet (fun _ _ _ h => h.2) hknown ⟨h, hfile⟩
          (fun e s h => hQ e s h.1) fun s now h hdone => ?_
        obtain rfl := Except.ok.inj hdone.1
        by_cases hfresh : s.now < f.stat.mtime + tokenMaxAge
        · simp only [hfresh, decide_true]
          exact Keeps.ended (r := .ok true) (known_locked lag s₀ fd).stable h.1
            (known_locked lag s₀ fd).inv fun s h => ⟨h, fun hb => by cases hb⟩
        · simp only [hfresh, decide_false]
          exact hstale s h.1 (h.1.1.sound.stale h.2 (Or.inr (Nat.not_lt.mp hfresh)))

/-- `fetch_session_token` -/
theorem keepsToken_fetchSessionToken
    (hs : Locked lag s₀ fd s ∧ Stale lag s) :
    KeepsToken lag s₀ fd (fun r s => NonEmpty r ∧ Locked lag s₀ fd s ∧ Stale lag s)
      fetchSessionToken s := by
  refine Keeps.and_returns (Keeps.of_uses (known_stale lag s₀ fd).stable ?_
    (known_stale lag s₀ fd).inv (fun _ _ h => h) (uses_loginLoop _) hs) (returns_loginLoop _)
  rintro s op r s' rfl h henv
  obtain rfl : s' = s := by
    rcases henv with hdone | ⟨-, -, hsame⟩
    · exact hdone.2
    · exact hsame
  exact ⟨fun k _ => LeavesAlone.refl lag s₀ k s', h⟩

/-- What `update_token` does under the lock. -/
theorem keepsToken_updateLocked
    (hs : Locked lag s₀ fd s) :
    KeepsToken lag s₀ fd (fun r s => Inside lag s₀ fd s ∧ Tells fd r s) (updateLocked fd) s := by
  have herror : ∀ (e : Failure) s, Inside lag s₀ fd s →
      Inside lag s₀ fd s ∧ Tells fd (.error e) s :=
    fun e s h => ⟨h, fun b hb => by cases hb⟩
  have hraise : ∀ (e : Failure) s, Inside lag s₀ fd s →
      KeepsToken lag s₀ fd (fun r s => Inside lag s₀ fd s ∧ Tells fd r s) (Program.raise e) s :=
    fun e s h => Keeps.ended (r := .error e) (known_inside lag s₀ fd).stable h
      (known_inside lag s₀ fd).inv (herror e)
  have hend : ∀ b s, Inside lag s₀ fd s → (b = true ↔ SavedBy fd s) →
      KeepsToken lag s₀ fd (fun r s => Inside lag s₀ fd s ∧ Tells fd r s) (Program.pure b) s := by
    intro b s h htells
    refine Keeps.ended (r := .ok b) ((known_inside lag s₀ fd).stable.and (stable_tells lag s₀ fd _))
      ⟨h, fun b' hb => ?_⟩ (fun s h => h.1.sound) fun s h => h
    obtain rfl := Except.ok.inj hb
    exact htells
  refine Keeps.bind ((keepsToken_tokenIsFresh hs).weaken ?_)
  rintro (e | fresh) s - ⟨h, hstale⟩
  · exact hraise e s h.1
  cases fresh with
  | true =>
      refine hend false s h.1 (iff_of_false Bool.false_ne_true ?_)
      rintro ⟨save, hsave, heq⟩
      exact h.2.unsaved save hsave heq
  | false =>
      refine Keeps.bind ((keepsToken_fetchSessionToken ⟨h, hstale rfl⟩).weaken ?_)
      rintro (e | token) s - ⟨htoken, h⟩
      · exact hraise e s h.1.1
      refine keepsToken_quiet (fun _ _ _ h => h.2) (known_stale lag s₀ fd) h
        (fun e s h => herror e s h.1.1) fun s _ h _ => ?_
      refine keepsToken_perform (known_stale lag s₀ fd) h (fun e s h => herror e s h.1.1)
        fun s _ s' h hdone => ?_
      obtain ⟨-, truncated, -, rfl⟩ := hdone
      have hsound := sound_ftruncate h.1.1.sound h.2 truncated
      refine ⟨fun k hk => leavesAlone_of_written hk h.1.1.held hsound (by simp) (by simp), ?_⟩
      -- the file is empty until the token is written
      have htruncated := known_inside_and (B := fun s => ∃ mtime, s.file = some ⟨[], mtime⟩)
        (known_stale lag s₀ fd) (fun _ h => h.1.1.held)
        fun s s' ⟨mtime, h⟩ hfile _ _ => ⟨mtime, hfile.trans h⟩
      obtain ⟨f, hf⟩ := Option.isSome_iff_exists.mp h.1.2.exists_file
      refine keepsToken_perform htruncated
        ⟨⟨⟨⟨hsound, h.1.1.held⟩, ⟨by simp [hf], h.1.2.unsaved⟩⟩, h.2⟩, truncated, by simp [hf]⟩
        (fun e s h => herror e s h.1.1.1) fun s _ s' h hdone => ?_
      obtain ⟨count, mtime, -, hcount, hmtime, rfl⟩ := hdone
      obtain ⟨h, before, hfile⟩ := h
      have hsound := sound_write h.1.1.sound h.2 h.1.2.unsaved hfile (htoken token rfl) hcount
        hmtime
      refine ⟨fun k hk => leavesAlone_of_written hk h.1.1.held hsound (by simp)
        fun save hne => ?_, ?_⟩
      · rw [List.mem_cons, or_iff_right]
        rintro rfl
        exact hne rfl
      have hsaved := (known_inside lag s₀ fd).and (stable_savedBy lag s₀ fd)
      refine keepsToken_quiet (fun _ _ _ h => h.2) hsaved
        ⟨⟨hsound, h.1.1.held⟩, _, List.mem_cons_self, rfl⟩ (fun e s h => herror e s h.1)
        fun s _ h _ => ?_
      refine keepsToken_quiet (fun _ _ _ h => h.2) hsaved h (fun e s h => herror e s h.1)
        fun s _ h _ => ?_
      exact hend true s h.1 (iff_of_true rfl h.2)

/-- The lock is given up, by `flock` or by closing the file. -/
theorem keepsToken_release
    (op : TokenOp κ) {r : Except Failure Bool}
    (hfail : ¬ TokenOp.MayFail op)
    (hop : ∀ s a s', Carried lag s op a s' → (∃ u, a = .ok u) ∧ s' = s.release fd)
    (hsound : Sound lag s₀ s) (htells : Tells fd r s) :
    KeepsToken lag s₀ fd (fun r s => Outside lag s₀ fd s ∧ Tells fd r s)
      ((Program.perform op).bind fun _ => Program.ofExcept r) s := by
  have hstable : (tokenContract lag s₀ fd).Stable fun s => Sound lag s₀ s ∧ Tells fd r s :=
    fun s s' h hrely => ⟨hrely.sound h.1, stable_tells lag s₀ fd r s s' h.2 hrely⟩
  refine Keeps.call hstable ⟨hsound, htells⟩ (fun s h => h.1) fun s a s' h henv => ?_
  obtain ⟨⟨u, rfl⟩, rfl⟩ := hop s a s' (henv.resolve_right fun h => hfail h.1)
  have hleaves : ∀ k, k ≠ fd → LeavesAlone lag s₀ k s (s.release fd) := by
    intro k hk
    unfold TokenWorld.release
    split
    · next hheld =>
        refine leavesAlone_of_holder k (fun h => by cases h) (fun h => ?_) fun h => by cases h
        exact absurd (Option.some.inj (h.symm.trans hheld)) hk
    · exact LeavesAlone.refl lag s₀ k s
  have hout : Outside lag s₀ fd (s.release fd) ∧ Tells fd r (s.release fd) := by
    unfold TokenWorld.release
    split
    · exact ⟨⟨h.1.with_holder (fun h => by cases h), fun h => by cases h⟩, h.2⟩
    · next hfree => exact ⟨⟨h.1, hfree⟩, h.2⟩
  exact ⟨hleaves, Keeps.ended ((known_outside lag s₀ fd).stable.and (stable_tells lag s₀ fd r)) hout
    (fun s h => h.1.sound) fun s h => h⟩

/-- `update_token` -/
theorem keepsToken_updateToken
    (hs : Outside lag s₀ fd s) (hunsaved : ∀ save ∈ s.saved, save.fd ≠ fd) :
    KeepsToken lag s₀ fd (fun r s => Outside lag s₀ fd s ∧ Tells fd r s) (updateToken fd) s := by
  have hknown : (tokenContract lag s₀ fd).Known (Sound lag s₀) fun s =>
      Outside lag s₀ fd s ∧ ∀ save ∈ s.saved, save.fd ≠ fd :=
    (known_outside lag s₀ fd).and fun s s' h hrely save hsave heq =>
      h save ((hrely.own save heq).mp hsave) heq
  have herror : ∀ (e : Failure) s, Tells fd (.error e) s := fun e s b hb => by cases hb
  refine keepsToken_perform hknown ⟨hs, hunsaved⟩ (fun e s h => ⟨h.1, herror e s⟩)
    fun s _ s' h hdone => ?_
  obtain ⟨-, mtime, -, rfl⟩ := hdone
  have hsound := sound_openFile h.1.sound mtime
  refine ⟨fun k _ => leavesAlone_of_openFile k h.1.sound mtime, ?_⟩
  have hopen := (known_outside lag s₀ fd).and (stable_unsaved lag s₀ fd)
  -- closing the file ends the script
  refine Keeps.andFinally (Keeps.weaken (fun r s hsound h => ?_)
    (R := fun r s => KeepsToken lag s₀ fd (fun r s => Outside lag s₀ fd s ∧ Tells fd r s)
      ((close fd).bind fun _ => Program.ofExcept r) s)
    (Q := fun r s => Tells fd r s) ?_)
  · exact keepsToken_release (.close fd) not_false (fun _ _ _ h => ⟨⟨(), h.1⟩, h.2⟩) hsound h
  refine keepsToken_perform hopen ⟨⟨hsound, h.1.free⟩, ⟨rfl, h.2⟩⟩ (fun e s _ => herror e s)
    fun s _ s' h hdone => ?_
  obtain ⟨hfree, -, rfl⟩ := hdone
  have hopened : (some fd).isSome = true → s.file.isSome = true := fun _ => h.2.exists_file
  have hleaves : ∀ k, k ≠ fd → LeavesAlone lag s₀ k s { s with holder := some fd } := by
    refine fun k hk => leavesAlone_of_holder k hopened (fun h => ?_) fun h => ?_
    · rw [hfree] at h
      cases h
    · exact absurd (Option.some.inj h).symm hk
  refine ⟨hleaves, ?_⟩
  have hinside : Locked lag s₀ fd { s with holder := some fd } :=
    ⟨⟨h.1.sound.with_holder hopened, rfl⟩, h.2.exists_file, h.2.unsaved⟩
  refine Keeps.andFinally ((keepsToken_updateLocked hinside).weaken fun r s hsound h => ?_)
  have hrelease := keepsToken_release (.unlock fd) not_false
    (fun _ _ _ h => ⟨⟨(), h.1⟩, h.2⟩) hsound h.2
  exact hrelease.weaken fun r s _ h => h.2

end Steps

/-! ## Any number of scripts -/

section Pools

variable {κ : Type} [DecidableEq κ]

/-- What holds while scripts refresh the token side by side, since `s₀`. -/
structure TokenKept (lag : Nat) (s₀ : TokenWorld κ)
    (pool : Pool κ (tokenSignature κ) Failure Bool (TokenWorld κ)) : Prop where
  /-- after a write of something there are five minutes, less the lag -/
  spaced : pool.world.saved.Pairwise fun newer older =>
    0 < older.count → older.time + tokenMaxAge ≤ newer.time + lag
  /-- the file has what it had, nothing, or what was written last -/
  whole : ∀ f, pool.world.file = some f → f.content ≠ [] →
    (pool.world.saved = [] ∧ s₀.file = some f) ∨
      ∃ last rest, pool.world.saved = last :: rest ∧ f.content = last.written
  tokens : ∀ save ∈ pool.world.saved, save.count ≤ save.data.length ∧
    ∃ token, token ≠ [] ∧ save.data = encode (token ++ ['\n'])
  once : (pool.world.saved.map Save.fd).Nodup
  told : ∀ fd b, (fd, .ok b) ∈ pool.results →
    (b = true ↔ ∃ save ∈ pool.world.saved, save.fd = fd)
  released : ∀ fd r, (fd, r) ∈ pool.results → pool.world.holder ≠ some fd

/-- However the scripts interleave and whatever fails in them, after a write of at least
one byte no other one comes for five minutes, less what the time of the file may lag
behind; no write is mixed with another one, each script tells truly whether it came to its
write, and none keeps the lock. -/
theorem refreshes_spaced
    (lag : Nat) (s₀ : TokenWorld κ) (fds : List κ) (workers : Nat)
    (pool : Pool κ (tokenSignature κ) Failure Bool (TokenWorld κ))
    (hfree : s₀.holder = none)
    (hsaved : s₀.saved = [])
    (hnodup : fds.Nodup)
    (hreach : Pool.Reachable (host lag) Passes workers s₀
      (fds.map fun fd => (fd, updateToken fd)) pool) :
    TokenKept lag s₀ pool := by
  have hsound : Sound lag s₀ s₀ := by
    have hnone : ∀ save, save ∉ s₀.saved := fun save h => by
      rw [hsaved] at h
      cases h
    refine ⟨fun h => ?_, fun _ => hsaved, fun _ _ _ save h => absurd h (hnone save),
      fun f hf _ => Or.inl ⟨hsaved, hf⟩, fun save h => absurd h (hnone save),
      fun save h => absurd h (hnone save), ?_, ?_⟩
    · rw [hfree] at h
      cases h
    · rw [hsaved]
      exact List.Pairwise.nil
    · rw [hsaved]
      exact List.nodup_nil
  have hkeeps : ∀ pool, Pool.Reachable (host lag) Passes workers s₀
      (fds.map fun fd => (fd, updateToken fd)) pool → ∀ job ∈ pool.jobs,
        KeepsToken lag s₀ job.1 (fun r s => Outside lag s₀ job.1 s ∧ Tells job.1 r s) job.2.rest
          pool.world := by
    intro pool hreach
    refine Pool.keeps_of_reachable (c := tokenContract lag s₀) (I := fun _ => Sound lag s₀)
      (Q := fun fd r s => Outside lag s₀ fd s ∧ Tells fd r s) ?_
      (fun k k' hne s s' h => h k hne) (fun k _ s s' h => leavesAlone_of_passes h) ?_ hreach
    · simpa [Function.comp_def] using hnodup
    · intro program hprogram
      obtain ⟨fd, -, rfl⟩ := List.mem_map.mp hprogram
      refine keepsToken_updateToken ⟨hsound, ?_⟩ ?_
      · rw [hfree]
        exact fun h => by cases h
      · rw [hsaved]
        exact fun save h => by cases h
  have hnow : Sound lag s₀ pool.world := by
    refine Pool.inv_of_reachable (I := Sound lag s₀) (c := tokenContract lag s₀)
      (Q := fun fd r s => Outside lag s₀ fd s ∧ Tells fd r s) hsound ?_ hkeeps hreach
    rintro s _ ⟨now, hnow, rfl⟩ h
    exact h.passes hnow
  have hpost : ∀ fd r, (fd, r) ∈ pool.results →
      Outside lag s₀ fd pool.world ∧ Tells fd r pool.world := fun fd r hresult =>
    Pool.post_of_mem_results (c := tokenContract lag s₀) (I := fun _ => Sound lag s₀)
      (Q := fun fd r s => Outside lag s₀ fd s ∧ Tells fd r s) hreach (hkeeps pool hreach) hresult
  have hwhole : ∀ f, pool.world.file = some f → f.content ≠ [] →
      (pool.world.saved = [] ∧ s₀.file = some f) ∨
        ∃ last rest, pool.world.saved = last :: rest ∧ f.content = last.written :=
    fun f hf hne => (hnow.written f hf hne).imp_right
      fun ⟨last, rest, hsaved, hcontent, _⟩ => ⟨last, rest, hsaved, hcontent⟩
  exact ⟨hnow.spaced, hwhole, hnow.tokens, hnow.once,
    fun fd b h => (hpost fd _ h).2 b rfl, fun fd r h => (hpost fd r h).1.free⟩

/-- A host where an operation is carried out if it can be.  The time of the file lags as far as
it may, and a write stops after `limit` bytes. -/
def slowHost (lag limit : Nat) (response : LoginResponse) :
    Handler (tokenSignature κ) Failure (TokenWorld κ)
  | s, .openFile _ => (.ok (), { s with file := some (s.file.getD ⟨[], s.now - lag⟩) })
  | s, .lock fd =>
      if s.holder = none then (.ok (), { s with holder := some fd }) else (.error .os, s)
  | s, .unlock fd => (.ok (), s.release fd)
  | s, .close fd => (.ok (), s.release fd)
  | s, .stat => (.ok (s.file.map TokenFile.stat), s)
  | s, .time => (.ok s.now, s)
  | s, .post => (.ok response, s)
  | s, .ftruncate _ => (.ok (), { s with file := s.file.map fun _ => ⟨[], s.now - lag⟩ })
  | s, .write fd data =>
      (.ok (min limit data.length : Nat),
        { s with
          file := s.file.map fun f =>
            ⟨data.take (min limit data.length) ++ f.content.drop (min limit data.length),
              s.now - lag⟩
          saved := ⟨fd, data, min limit data.length, s.now⟩ :: s.saved })
  | s, .lseek _ => (.ok (), s)
  | s, .fsync _ => (.ok (), s)
  | s, .fchmod _ => (.ok (), s)

theorem host_slowHost
    (lag limit : Nat) (response : LoginResponse) (s : TokenWorld κ) (op : TokenOp κ) :
    host lag s op (slowHost lag limit response s op).1 (slowHost lag limit response s op).2 := by
  have hstamps : s.Stamps lag (s.now - lag) := by
    unfold TokenWorld.Stamps
    omega
  cases op with
  | openFile fd => exact Or.inl ⟨rfl, _, hstamps, rfl⟩
  | lock fd =>
      by_cases hfree : s.holder = none
      · simp only [slowHost, if_pos hfree]
        exact Or.inl ⟨hfree, rfl, rfl⟩
      · simp only [slowHost, if_neg hfree]
        exact Or.inr ⟨trivial, ⟨_, rfl⟩, rfl⟩
  | post => exact Or.inl ⟨⟨response, rfl⟩, rfl⟩
  | ftruncate fd => exact Or.inl ⟨rfl, _, hstamps, rfl⟩
  | write fd data => exact Or.inl ⟨_, _, rfl, Nat.min_le_right _ _, hstamps, rfl⟩
  | _ => exact Or.inl ⟨rfl, rfl⟩

/-- Two writes of one byte each, five minutes less the lag apart. -/
def twiceSaved : TokenWorld Bool where
  now := tokenMaxAge
  file := some ⟨encode ['t'], tokenMaxAge - 1⟩
  holder := none
  saved := [⟨true, encode ['t', '\n'], 1, tokenMaxAge⟩, ⟨false, encode ['t', '\n'], 1, 1⟩]

/-- Two scripts where there is no file yet: one of them writes, and the other one later. -/
theorem refreshes_spaced_two :
    ∃ pool : Pool Bool (tokenSignature Bool) Failure Bool (TokenWorld Bool),
      Pool.Reachable (host 1) Passes 2 ⟨1, none, none, []⟩
        ([false, true].map fun fd => (fd, updateToken fd)) pool ∧
      pool.world = twiceSaved ∧ pool.results = [(false, .ok true), (true, .ok true)] ∧
      TokenKept 1 ⟨1, none, none, []⟩ pool := by
  have hruns : ∀ (fd : Bool) s, Completes (host 1) s (updateToken fd)
      ((updateToken fd).run (slowHost 1 1 ⟨true, some ['t']⟩) s).1
      ((updateToken fd).run (slowHost 1 1 ⟨true, some ['t']⟩) s).2 :=
    fun fd s => Program.run_completes (host_slowHost 1 1 _) (updateToken fd) s
  have hstart : Pool.Reachable (host 1) Passes 2 ⟨1, none, none, []⟩
      ([false, true].map fun fd => (fd, updateToken fd)) (Pool.initial ⟨1, none, none, []⟩
        ([false, true].map fun fd => (fd, updateToken fd))) := .refl
  have hfirst := hstart.tail (.take _ [] [_] false _ rfl (by simp) Nat.zero_lt_two)
  have hboth := hfirst.tail (.take _ [_] [] true _ rfl (by simp [Job.waiting]) Nat.one_lt_two)
  have hsaved := hboth.trans (Pool.steps_of_reaches [] [_] (hruns false _))
  have hover := hsaved.tail (.finish _ [] [_] false (.ok true) rfl)
  have hlater := hover.tail (.drift _ _ ⟨tokenMaxAge, by decide, rfl⟩)
  have hagain := hlater.trans (Pool.steps_of_reaches [_] [] (hruns true _))
  have hreach := hagain.tail (.finish _ [_] [] true (.ok true) rfl)
  exact ⟨_, hreach, rfl, rfl,
    refreshes_spaced 1 ⟨1, none, none, []⟩ [false, true] 2 _ rfl rfl (by decide) hreach⟩

end Pools

end Tokens
end YdbSnippets

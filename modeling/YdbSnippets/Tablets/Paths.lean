import YdbSnippets.Python.Text
import YdbSnippets.Text.Search
import Mathlib.Tactic.SplitIfs

/-!
# Scheme paths and prefixes

`manage_tablets.py`: the normal form of a path, and which paths are under a
prefix.
-/

namespace YdbSnippets
namespace Tablets

open Python Text

section Definitions

/-- `path.replace('\\', '/')` -/
def replaceBackslashes (path : Str) : Str :=
  path.map (fun c => if c = '\\' then '/' else c)

/-- `path.replace('//', '/')` -/
def halveSlashes : Str → Str
  | '/' :: '/' :: rest => '/' :: halveSlashes rest
  | c :: rest => c :: halveSlashes rest
  | [] => []

theorem length_halveSlashes_le (path : Str) :
    (halveSlashes path).length ≤ path.length := by
  fun_induction halveSlashes path with
  | case1 rest ih =>
      simp only [List.length_cons]
      omega
  | case2 c rest _ ih =>
      simp only [List.length_cons]
      omega
  | case3 => exact Nat.le_refl _

theorem length_halveSlashes_lt
    {path : Str}
    (h : occurs ['/', '/'] path = true) :
    (halveSlashes path).length < path.length := by
  fun_induction halveSlashes path with
  | case1 rest ih =>
      have hle := length_halveSlashes_le rest
      simp only [List.length_cons]
      omega
  | case2 c rest hne ih =>
      have hrest : occurs ['/', '/'] rest = true := by
        rw [occurs, Bool.or_eq_true] at h
        refine h.resolve_left fun hpre => ?_
        obtain ⟨tail, htail⟩ := List.isPrefixOf_iff_prefix.mp hpre
        rw [List.cons_append, List.cons_append, List.cons.injEq] at htail
        exact hne tail htail.1.symm htail.2.symm
      simp only [List.length_cons]
      exact Nat.succ_lt_succ (ih hrest)
  | case3 => cases h

/-- `while '//' in path: path = path.replace('//', '/')` -/
def squeezeSlashes (path : Str) : Str :=
  if occurs ['/', '/'] path = true then squeezeSlashes (halveSlashes path) else path
termination_by path.length
decreasing_by exact length_halveSlashes_lt (by assumption)

/-- `normalize_path` -/
def normalizePath (path : Str) : Str :=
  let path := replaceBackslashes (strip path)
  let path := if path.head? = some '/' then path else '/' :: path
  let path := squeezeSlashes path
  if 1 < path.length then rstrip '/' path else path

/-- `join_path` -/
def joinPath (parent name : Str) : Str :=
  rstrip '/' parent ++ '/' :: name

/-- `path_matches_prefix` -/
def pathMatchesPrefix (path : Str) : Option Str → Bool
  | none => true
  | some pre =>
      let path := normalizePath path
      let pre := normalizePath pre
      path == pre || (pre ++ ['/']).isPrefixOf path

/-- `paths_intersect` -/
def pathsIntersect (path : Str) : Option Str → Bool
  | none => true
  | some pre => pathMatchesPrefix path (some pre) || pathMatchesPrefix pre (some path)

/-- The `ValueError` of `resolve_prefix`. -/
inductive PathError
  | outsideDatabase (pre database : Str)
deriving DecidableEq, Repr

/-- `resolve_prefix` -/
def resolvePrefix (database : Str) : Option Str → Except PathError (Option Str)
  | none => .ok none
  | some pre =>
      if (strip pre).isEmpty then .ok none
      else
        let database := normalizePath database
        let raw := strip pre
        let raw := if raw.head? = some '/' then raw else joinPath database raw
        let pre := normalizePath raw
        if pathMatchesPrefix pre (some database) then .ok (some pre)
        else .error (.outsideDatabase pre database)

/-- The non-empty parts of the normal form of a path. -/
def pathComponents (path : Str) : List Str :=
  components '/' (normalizePath path)

end Definitions

section NormalForm

/-- The path with these components. -/
def absolutePath (parts : List Str) : Str :=
  if parts = [] then ['/'] else parts.flatMap (fun part => '/' :: part)

theorem occurs_append
    {needle : Str} (front : Str) {rest : Str}
    (h : occurs needle (front ++ rest) = false) :
    occurs needle rest = false := by
  induction front with
  | nil => exact h
  | cons c front ih =>
      rw [List.cons_append, occurs, Bool.or_eq_false_iff] at h
      exact ih h.2

/-- A text without empty parts is the list of its components. -/
theorem cons_eq_flatMap
    {t : Str} (hne : t ≠ [])
    (hhead : t.head? ≠ some '/')
    (hlast : t.getLast? ≠ some '/')
    (hdouble : occurs ['/', '/'] t = false) :
    '/' :: t = (components '/' t).flatMap (fun part => '/' :: part) := by
  induction hlength : t.length using Nat.strong_induction_on generalizing t with
  | _ n ih =>
      have hsplit := List.takeWhile_append_dropWhile (p := (· != '/')) (l := t)
      have hword : '/' ∉ t.takeWhile (· != '/') := by
        intro hmem
        have := List.mem_takeWhile_imp hmem
        simp at this
      have hfirst : t.takeWhile (· != '/') ≠ [] := by
        cases t with
        | nil => exact absurd rfl hne
        | cons c t =>
            have hc : c ≠ '/' := fun heq => hhead (by rw [heq]; rfl)
            simp [hc]
      cases hrest : t.dropWhile (· != '/') with
      | nil =>
          rw [hrest, List.append_nil] at hsplit
          rw [← hsplit, components_word hword hfirst]
          simp
      | cons c rest =>
          have hc : c = '/' := by
            have hnot := List.head?_dropWhile_not (· != '/') t
            rw [hrest] at hnot
            simpa using hnot
          subst hc
          rw [hrest] at hsplit
          generalize t.takeWhile (· != '/') = word at hsplit hword hfirst
          subst hsplit
          have hdouble' := occurs_append word hdouble
          rw [occurs, Bool.or_eq_false_iff] at hdouble'
          have hne' : rest ≠ [] := by
            rintro rfl
            exact hlast (by simp)
          have hhead' : rest.head? ≠ some '/' := by
            intro heq
            cases rest with
            | nil => cases heq
            | cons d rest =>
                cases heq
                exact absurd hdouble'.1 (by simp)
          have hlast' : rest.getLast? ≠ some '/' := by
            intro heq
            refine hlast ?_
            rw [List.getLast?_append, List.getLast?_cons_of_ne_nil hne', heq]
            rfl
          have hlt : rest.length < n := by
            rw [← hlength, List.length_append, List.length_cons]
            omega
          have hrec := ih _ hlt hne' hhead' hlast' hdouble'.2 rfl
          rw [components_append_cons, components_word hword hfirst, List.flatMap_append, ← hrec]
          simp

/-- The shape of a normal form. -/
theorem eq_absolutePath
    {s : Str}
    (hhead : s.head? = some '/')
    (hdouble : occurs ['/', '/'] s = false)
    (hlast : 1 < s.length → s.getLast? ≠ some '/') :
    s = absolutePath (components '/' s) := by
  obtain ⟨t, rfl⟩ : ∃ t, s = '/' :: t := by
    cases s with
    | nil => cases hhead
    | cons c t =>
        cases hhead
        exact ⟨t, rfl⟩
  have hcomponents : components '/' ('/' :: t) = components '/' t := by
    have h := components_append_cons '/' [] t
    rwa [components_nil, List.nil_append, List.nil_append] at h
  cases ht : t with
  | nil =>
      rw [hcomponents] at *
      rfl
  | cons c rest =>
      have hne : t ≠ [] := by
        rw [ht]
        exact List.cons_ne_nil _ _
      rw [← ht, hcomponents]
      rw [occurs, Bool.or_eq_false_iff] at hdouble
      have hhead' : t.head? ≠ some '/' := by
        intro heq
        rw [ht] at heq
        cases heq
        rw [ht] at hdouble
        exact absurd hdouble.1 (by simp)
      have hlast' : t.getLast? ≠ some '/' := by
        have h := hlast (by rw [ht]; simp)
        rwa [List.getLast?_cons_of_ne_nil hne] at h
      have hflat := cons_eq_flatMap hne hhead' hlast' hdouble.2
      have hparts : components '/' t ≠ [] := by
        intro hnil
        rw [hnil] at hflat
        cases hflat
      rw [absolutePath, if_neg hparts]
      exact hflat

theorem head?_halveSlashes (path : Str) :
    (halveSlashes path).head? = path.head? := by
  fun_induction halveSlashes path <;> rfl

theorem head?_squeezeSlashes (path : Str) :
    (squeezeSlashes path).head? = path.head? := by
  fun_induction squeezeSlashes path with
  | case1 path _ ih => rw [ih, head?_halveSlashes]
  | case2 path _ => rfl

theorem occurs_squeezeSlashes (path : Str) :
    occurs ['/', '/'] (squeezeSlashes path) = false := by
  fun_induction squeezeSlashes path with
  | case1 path _ ih => exact ih
  | case2 path h => simpa using h

/-- A prefix of a text without double slashes has none. -/
theorem occurs_of_prefix
    {s t : Str} (hst : s <+: t)
    (h : occurs ['/', '/'] t = false) :
    occurs ['/', '/'] s = false := by
  obtain ⟨rest, rfl⟩ := hst
  induction s with
  | nil => rfl
  | cons c s ih =>
      rw [List.cons_append, occurs, Bool.or_eq_false_iff] at h
      rw [occurs, Bool.or_eq_false_iff]
      refine ⟨?_, ih h.2⟩
      by_contra hpre
      rw [Bool.not_eq_false] at hpre
      obtain ⟨tail, htail⟩ := List.isPrefixOf_iff_prefix.mp hpre
      have hlong : List.isPrefixOf ['/', '/'] (c :: (s ++ rest)) = true := by
        rw [List.isPrefixOf_iff_prefix]
        exact ⟨tail ++ rest, by rw [← List.append_assoc, htail]; rfl⟩
      rw [hlong] at h
      cases h.1

/-- What a normal form looks like. -/
theorem normalizePath_spec (path : Str) :
    (normalizePath path).head? = some '/' ∧
      occurs ['/', '/'] (normalizePath path) = false ∧
      (1 < (normalizePath path).length → (normalizePath path).getLast? ≠ some '/') := by
  set start := (if (replaceBackslashes (strip path)).head? = some '/'
    then replaceBackslashes (strip path) else '/' :: replaceBackslashes (strip path)) with hstart
  have hhead : (squeezeSlashes start).head? = some '/' := by
    rw [head?_squeezeSlashes, hstart]
    split_ifs with h
    · exact h
    · rfl
  have hdouble := occurs_squeezeSlashes start
  have hnormal : normalizePath path =
      if 1 < (squeezeSlashes start).length then rstrip '/' (squeezeSlashes start)
      else squeezeSlashes start := rfl
  rw [hnormal]
  split_ifs with hlong
  · have hpre := rstrip_prefix '/' (squeezeSlashes start)
    have hdouble' := occurs_of_prefix hpre hdouble
    -- the second character is no slash, so something is left behind the first
    obtain ⟨c, tail, htail⟩ : ∃ c tail, squeezeSlashes start = '/' :: c :: tail := by
      cases hs : squeezeSlashes start with
      | nil =>
          rw [hs] at hlong
          simp at hlong
      | cons d rest =>
          rw [hs] at hhead hlong
          cases hhead
          cases rest with
          | nil => simp at hlong
          | cons c tail => exact ⟨c, tail, rfl⟩
    have hc : c ≠ '/' := by
      rintro rfl
      rw [htail, occurs] at hdouble
      simp at hdouble
    have hkept : (rstrip '/' (squeezeSlashes start)).head? = some '/' := by
      have hne : rstrip '/' (squeezeSlashes start) ≠ [] := by
        intro hnil
        have hall := List.rdropWhile_eq_nil_iff.mp hnil c (by rw [htail]; simp)
        exact hc (by simpa using hall)
      obtain ⟨rest, hrest⟩ := hpre
      cases hs : rstrip '/' (squeezeSlashes start) with
      | nil => exact absurd hs hne
      | cons d rest' =>
          rw [hs, htail] at hrest
          rw [List.head?_cons, (List.cons.inj hrest).1]
    refine ⟨hkept, hdouble', ?_⟩
    intro _ hlast
    have hne : rstrip '/' (squeezeSlashes start) ≠ [] := by
      rintro hnil
      rw [hnil] at hlast
      cases hlast
    have hnot := List.rdropWhile_last_not (· == '/') (squeezeSlashes start) hne
    have hsame : (List.rdropWhile (· == '/') (squeezeSlashes start)).getLast hne = '/' := by
      have h := List.getLast?_eq_some_getLast hne
      rw [hlast] at h
      exact (Option.some.inj h).symm
    rw [hsame] at hnot
    exact hnot rfl
  · exact ⟨hhead, hdouble, fun h => absurd h hlong⟩

/-- A normal form is the path with its components. -/
theorem normalizePath_eq (path : Str) :
    normalizePath path = absolutePath (pathComponents path) := by
  obtain ⟨hhead, hdouble, hlast⟩ := normalizePath_spec path
  exact eq_absolutePath hhead hdouble hlast

theorem pathComponents_eq_nil_iff (path : Str) :
    pathComponents path = [] ↔ normalizePath path = ['/'] := by
  constructor
  · intro h
    rw [normalizePath_eq, h]
    rfl
  · intro h
    rw [pathComponents, h]
    decide

end NormalForm

section Prefixes

/-- A path that is not the root, and a prefix of it at a component boundary. -/
theorem isPrefixOf_absolutePath
    {parts more : List Str}
    (hparts : parts ≠ []) (hmore : more ≠ []) :
    (absolutePath parts ++ ['/']).isPrefixOf (absolutePath (parts ++ more)) = true := by
  obtain ⟨part, rest, rfl⟩ := List.exists_cons_of_ne_nil hmore
  have happend : parts ++ part :: rest ≠ [] := by simp
  rw [List.isPrefixOf_iff_prefix, absolutePath, absolutePath, if_neg hparts, if_neg happend]
  refine ⟨part ++ rest.flatMap (fun part => '/' :: part), ?_⟩
  simp

/-- A path matches a prefix by components, but only the root is under the
root. -/
theorem pathMatchesPrefix_iff (p q : Str) :
    pathMatchesPrefix p (some q) = true ↔
      pathComponents q <+: pathComponents p ∧
        (pathComponents q = [] → pathComponents p = []) := by
  have hp := normalizePath_eq p
  have hq := normalizePath_eq q
  simp only [pathMatchesPrefix, Bool.or_eq_true, beq_iff_eq, List.isPrefixOf_iff_prefix]
  constructor
  · rintro (heq | ⟨rest, hrest⟩)
    · have hcomponents : pathComponents p = pathComponents q := by
        rw [pathComponents, heq, pathComponents]
      rw [hcomponents]
      exact ⟨List.prefix_refl _, id⟩
    · have hcomponents : pathComponents p = pathComponents q ++ components '/' rest := by
        rw [pathComponents, ← hrest, List.append_assoc, List.singleton_append,
          components_append_cons, ← pathComponents]
      refine ⟨⟨_, hcomponents.symm⟩, fun hnil => ?_⟩
      -- a normal form does not start with two slashes
      rw [(pathComponents_eq_nil_iff q).mp hnil] at hrest
      have hdouble := (normalizePath_spec p).2.1
      rw [← hrest] at hdouble
      cases hdouble
  · rintro ⟨⟨more, hmore⟩, hroot⟩
    by_cases hnil : more = []
    · left
      rw [hp, hq, ← hmore, hnil, List.append_nil]
    · right
      have hne : pathComponents q ≠ [] := by
        intro hempty
        have := hroot hempty
        rw [hempty, List.nil_append] at hmore
        exact hnil (hmore.trans this)
      rw [← List.isPrefixOf_iff_prefix, hp, hq, ← hmore]
      exact isPrefixOf_absolutePath hne hnil

theorem pathMatchesPrefix_self (p : Str) :
    pathMatchesPrefix p (some p) = true :=
  (pathMatchesPrefix_iff p p).mpr ⟨List.prefix_refl _, id⟩

theorem pathMatchesPrefix_trans
    {p q r : Str}
    (hpq : pathMatchesPrefix p (some q) = true)
    (hqr : pathMatchesPrefix q (some r) = true) :
    pathMatchesPrefix p (some r) = true := by
  obtain ⟨hpre, hroot⟩ := (pathMatchesPrefix_iff p q).mp hpq
  obtain ⟨hpre', hroot'⟩ := (pathMatchesPrefix_iff q r).mp hqr
  exact (pathMatchesPrefix_iff p r).mpr
    ⟨hpre'.trans hpre, fun h => hroot (hroot' h)⟩

/-- Paths are compared by components, except that no path but the root itself
is taken to be under the root. -/
theorem paths_compared_by_components_iff (p q : Str) :
    ((pathMatchesPrefix p (some q) = true ↔ pathComponents q <+: pathComponents p) ↔
        (pathComponents q = [] → pathComponents p = [])) ∧
      ((pathsIntersect p (some q) = true ↔
          pathComponents q <+: pathComponents p ∨ pathComponents p <+: pathComponents q) ↔
        (pathComponents q = [] ↔ pathComponents p = [])) ∧
      pathMatchesPrefix p (some p) = true ∧
      ∀ r, pathMatchesPrefix p (some q) = true → pathMatchesPrefix q (some r) = true →
        pathMatchesPrefix p (some r) = true := by
  have hpq := pathMatchesPrefix_iff p q
  have hqp := pathMatchesPrefix_iff q p
  have hempty : ∀ parts : List Str, parts = [] → parts <+: pathComponents p ∧
      parts <+: pathComponents q := by
    rintro parts rfl
    exact ⟨List.nil_prefix, List.nil_prefix⟩
  refine ⟨?_, ?_, pathMatchesPrefix_self p, fun r => pathMatchesPrefix_trans⟩
  · rw [hpq]
    constructor
    · intro h hnil
      exact (h.mpr (hempty _ hnil).1).2 hnil
    · intro h
      exact ⟨fun hmatch => hmatch.1, fun hpre => ⟨hpre, h⟩⟩
  · unfold pathsIntersect
    rw [Bool.or_eq_true, hpq, hqp]
    constructor
    · intro h
      constructor
      · intro hnil
        rcases h.mpr (Or.inl (hempty _ hnil).1) with hmatch | hmatch
        · exact hmatch.2 hnil
        · exact List.prefix_nil.mp (hnil ▸ hmatch.1)
      · intro hnil
        rcases h.mpr (Or.inr (hempty _ hnil).2) with hmatch | hmatch
        · exact List.prefix_nil.mp (hnil ▸ hmatch.1)
        · exact hmatch.2 hnil
    · intro hroots
      exact or_congr ⟨fun h => h.1, fun h => ⟨h, hroots.mp⟩⟩
        ⟨fun h => h.1, fun h => ⟨h, hroots.mpr⟩⟩

/-- A database path is not taken to be under the root. -/
theorem database_not_under_root :
    ¬ ∀ p q : Str, pathMatchesPrefix p (some q) = true ↔
      pathComponents q <+: pathComponents p := by
  intro hclaim
  have hroot : pathComponents "/".toList = [] :=
    (pathComponents_eq_nil_iff _).mpr (by decide +kernel)
  have hmatch := (hclaim "/Root".toList "/".toList).mpr (by rw [hroot]; exact List.nil_prefix)
  revert hmatch
  decide +kernel

end Prefixes

end Tablets
end YdbSnippets

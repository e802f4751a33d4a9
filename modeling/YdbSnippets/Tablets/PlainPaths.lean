import YdbSnippets.Tablets.Walks

/-!
# Paths that are their own normal form

`path_matches_prefix` compares the normal forms of two paths.  A path below a
database is its own normal form when no name has a backslash or ends in white
space; then the comparison is one of names.
-/

namespace YdbSnippets
namespace Tablets

open Python Text

section NormalForms

theorem mem_of_mem_halveSlashes
    {path : Str} {c : Char}
    (h : c ∈ halveSlashes path) :
    c ∈ path := by
  fun_induction halveSlashes path with
  | case1 rest ih =>
      rcases List.mem_cons.mp h with rfl | h
      · exact List.mem_cons_self
      · exact List.mem_cons_of_mem _ (List.mem_cons_of_mem _ (ih h))
  | case2 d rest _ ih =>
      rcases List.mem_cons.mp h with rfl | h
      · exact List.mem_cons_self
      · exact List.mem_cons_of_mem _ (ih h)
  | case3 => exact h

theorem mem_of_mem_squeezeSlashes
    {path : Str} {c : Char}
    (h : c ∈ squeezeSlashes path) :
    c ∈ path := by
  fun_induction squeezeSlashes path with
  | case1 path _ ih => exact mem_of_mem_halveSlashes (ih h)
  | case2 path _ => exact h

/-- Backslashes are replaced. -/
theorem backslash_not_mem_normalizePath (path : Str) :
    '\\' ∉ normalizePath path := by
  have hreplaced : ∀ s : Str, '\\' ∉ replaceBackslashes s := by
    intro s hmem
    obtain ⟨c, -, hc⟩ := List.mem_map.mp hmem
    split at hc
    · cases hc
    · next hne => exact hne hc
  have hstripped : ∀ s : Str, '\\' ∈ (if 1 < s.length then rstrip '/' s else s) → '\\' ∈ s := by
    intro s hmem
    split at hmem
    · exact ( rstrip_prefix _ _).subset hmem
    · exact hmem
  intro hmem
  have hstart := mem_of_mem_squeezeSlashes (hstripped _ hmem)
  split at hstart
  · exact hreplaced _ hstart
  · rcases List.mem_cons.mp hstart with hslash | hstart
    · cases hslash
    · exact hreplaced _ hstart

/-- What `normalize_path` leaves alone. -/
theorem normalizePath_eq_self
    {path : Str}
    (hhead : path.head? = some '/')
    (hback : '\\' ∉ path)
    (hdouble : occurs ['/', '/'] path = false)
    (hspace : ∀ c ∈ path.getLast?, isSpace c = false)
    (hlast : 1 < path.length → path.getLast? ≠ some '/') :
    normalizePath path = path := by
  have hstrip : strip path = path := by
    refine strip_eq_self ?_ hspace
    intro c hc
    rw [hhead] at hc
    cases hc
    decide
  have hreplace : replaceBackslashes path = path := by
    unfold replaceBackslashes
    refine (List.map_congr_left ?_).trans (List.map_id path)
    intro c hc
    rw [if_neg, id]
    rintro rfl
    exact hback hc
  have hsqueeze : squeezeSlashes path = path := by
    rw [squeezeSlashes, if_neg (by simp [hdouble])]
  unfold normalizePath
  rw [hstrip, hreplace]
  dsimp only
  rw [if_pos hhead, hsqueeze]
  split
  · next hlong =>
      obtain ⟨init, c, rfl⟩ : ∃ init c, path = init ++ [c] := by
        cases path using List.reverseRecOn with
        | nil => cases hhead
        | append_singleton init c => exact ⟨init, c, rfl⟩
      refine rstrip_append_of_ne init ?_
      rintro rfl
      exact hlast hlong (by simp)
  · rfl

end NormalForms

section PlainNames

/-- A name that `normalize_path` leaves alone at the end of a path. -/
structure IsPlainName (name : Str) : Prop extends IsName name where
  noBackslash : '\\' ∉ name
  noSpace : ∀ c ∈ name.getLast?, isSpace c = false

theorem isPlainName_of_getLast
    {name : Str} {last : Char} (hname : '/' ∉ name) (hback : '\\' ∉ name)
    (hlast : name.getLast? = some last) (hspace : isSpace last = false) :
    IsPlainName name where
  ne_nil := by
    rintro rfl
    cases hlast
  noSlash := hname
  noBackslash := hback
  noSpace c hc := by
    obtain rfl := Option.some.inj (hlast.symm.trans hc)
    exact hspace

/-- No part of a split text has the separator. -/
theorem not_mem_of_mem_splitOn
    {sep : Char} {s part : Str}
    (h : part ∈ s.splitOn sep) :
    sep ∉ part := by
  induction s generalizing part with
  | nil =>
      rw [List.splitOn_nil, List.mem_singleton] at h
      simp [h]
  | cons c rest ih =>
      rw [List.splitOn_cons_eq_if_modifyHead] at h
      split at h
      · rcases List.mem_cons.mp h with rfl | h
        · simp
        · exact ih h
      · next hc =>
          obtain ⟨first, others, hsplit⟩ :=
            List.exists_cons_of_ne_nil (List.splitOn_ne_nil sep rest)
          rw [hsplit, List.modifyHead_cons] at h
          rcases List.mem_cons.mp h with rfl | h
          · have hfirst : sep ∉ first := ih (by rw [hsplit]; exact List.mem_cons_self)
            rw [List.mem_cons, not_or]
            exact ⟨fun heq => hc (by simp [heq]), hfirst⟩
          · exact ih (by rw [hsplit]; exact List.mem_cons_of_mem _ h)

/-- The components of a path are names. -/
theorem isName_of_mem_pathComponents
    {path name : Str}
    (h : name ∈ pathComponents path) :
    IsName name := by
  obtain ⟨hmem, hne⟩ := List.mem_filter.mp h
  exact ⟨by simpa using hne, not_mem_of_mem_splitOn hmem⟩

theorem occurs_slashed
    {names : List Str}
    (h : ∀ name ∈ names, IsName name) :
    occurs ['/', '/'] (slashed names) = false := by
  have hword : ∀ (name rest : Str), '/' ∉ name → occurs ['/', '/'] rest = false →
      occurs ['/', '/'] (name ++ rest) = false := by
    intro name rest hname hrest
    induction name with
    | nil => exact hrest
    | cons c name ih =>
        rw [List.mem_cons, not_or] at hname
        rw [List.cons_append, occurs, ih hname.2, Bool.or_false]
        simp [List.isPrefixOf, hname.1]
  induction names with
  | nil => rfl
  | cons name names ih =>
      obtain ⟨hname, hnames⟩ := List.forall_mem_cons.mp h
      rw [slashed_cons, List.cons_append, occurs, Bool.or_eq_false_iff]
      refine ⟨?_, hword name _ hname.noSlash (ih hnames)⟩
      obtain ⟨c, rest, rfl⟩ := List.exists_cons_of_ne_nil hname.ne_nil
      have hc : '/' ≠ c := fun heq => hname.noSlash (heq ▸ List.mem_cons_self)
      simp [List.isPrefixOf, hc]

/-- The database path is its own normal form, and it is not the root. -/
structure IsDatabasePath (database : Str) : Prop where
  normal : normalizePath database = database
  ne_root : database ≠ ['/']

variable {database : Str}

theorem IsDatabasePath.components_ne_nil
    (h : IsDatabasePath database) :
    pathComponents database ≠ [] := by
  intro hnil
  exact h.ne_root (h.normal.symm.trans ((pathComponents_eq_nil_iff database).mp hnil))

theorem IsDatabasePath.eq_slashed
    (h : IsDatabasePath database) :
    database = slashed (pathComponents database) := by
  have hnormal := normalizePath_eq database
  rw [h.normal, absolutePath, if_neg h.components_ne_nil] at hnormal
  exact hnormal

theorem rstrip_slashed
    {names : List Str}
    (h : ∀ name ∈ names, IsName name) :
    rstrip '/' (slashed names) = slashed names := by
  have hstrip := rstrip_pathBelow [] h
  cases names with
  | nil => rfl
  | cons name names =>
      rw [pathBelow, if_neg (List.cons_ne_nil name names)] at hstrip
      exact hstrip

/-- A path below the database is the database's components and the names. -/
theorem IsDatabasePath.pathBelow_eq
    (h : IsDatabasePath database) (names : List Str) :
    pathBelow database names = slashed (pathComponents database ++ names) := by
  have hrstrip : rstrip '/' database = database := by
    have hslashed := rstrip_slashed fun name (hname : name ∈ pathComponents database) =>
      isName_of_mem_pathComponents hname
    rwa [← h.eq_slashed] at hslashed
  rw [slashed_append, ← h.eq_slashed]
  unfold pathBelow
  split
  · next hnil => rw [hnil, slashed_nil, List.append_nil]
  · rw [hrstrip]

/-- Paths below the database are their own normal forms. -/
theorem IsDatabasePath.normal_pathBelow
    (h : IsDatabasePath database) {names : List Str}
    (hnames : ∀ name ∈ names, IsPlainName name) :
    normalizePath (pathBelow database names) = pathBelow database names := by
  cases hcases : names using List.reverseRecOn with
  | nil => exact h.normal
  | append_singleton init name =>
      rw [← hcases, h.pathBelow_eq]
      have hname : IsPlainName name := hnames name (by simp [hcases])
      have hall : ∀ n ∈ pathComponents database ++ names, IsName n := by
        intro n hn
        rcases List.mem_append.mp hn with hn | hn
        · exact isName_of_mem_pathComponents hn
        · exact (hnames n hn).toIsName
      have hgetLast : (slashed (pathComponents database ++ names)).getLast? = name.getLast? := by
        rw [hcases, ← List.append_assoc, slashed_append, slashed_singleton, List.getLast?_append,
          List.getLast?_cons_of_ne_nil hname.ne_nil]
        cases hlast : name.getLast? with
        | none => exact absurd (List.getLast?_eq_none_iff.mp hlast) hname.ne_nil
        | some c => rfl
      refine normalizePath_eq_self ?_ ?_ (occurs_slashed hall) ?_ ?_
      · obtain ⟨first, others, hparts⟩ :=
          List.exists_cons_of_ne_nil (l := pathComponents database ++ names) (by simp [hcases])
        rw [hparts]
        rfl
      · rw [slashed_append, ← h.eq_slashed]
        intro hmem
        rcases List.mem_append.mp hmem with hmem | hmem
        · exact backslash_not_mem_normalizePath database (h.normal.symm ▸ hmem)
        · obtain ⟨n, hn, hmem⟩ := List.mem_flatMap.mp hmem
          rcases List.mem_cons.mp hmem with hslash | hmem
          · cases hslash
          · exact (hnames n hn).noBackslash hmem
      · rw [hgetLast]
        exact hname.noSpace
      · rw [hgetLast]
        intro _ hlast
        exact hname.noSlash (List.mem_of_getLast? hlast)

theorem IsDatabasePath.components_pathBelow
    (h : IsDatabasePath database) {names : List Str}
    (hnames : ∀ name ∈ names, IsPlainName name) :
    pathComponents (pathBelow database names) = pathComponents database ++ names := by
  conv_lhs => rw [pathComponents, h.normal_pathBelow hnames, h.pathBelow_eq]
  refine components_slashed ?_
  intro n hn
  rcases List.mem_append.mp hn with hn | hn
  · exact isName_of_mem_pathComponents hn
  · exact (hnames n hn).toIsName

theorem pathBelow_pathBelow
    {names : List Str} (start : Str) (more : List Str)
    (hnames : ∀ name ∈ names, IsName name) :
    pathBelow (pathBelow start names) more = pathBelow start (names ++ more) := by
  cases hmore : more with
  | nil => simp
  | cons name rest =>
      have hne : names ++ name :: rest ≠ [] := by simp
      rw [pathBelow, if_neg (List.cons_ne_nil name rest), rstrip_pathBelow start hnames, pathBelow,
        if_neg hne, slashed_append, List.append_assoc]

end PlainNames

end Tablets
end YdbSnippets

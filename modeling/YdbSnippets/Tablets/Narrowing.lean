import YdbSnippets.Tablets.PlainPaths
import YdbSnippets.Tablets.Selection

/-!
# A walk that is narrowed by a prefix

With a prefix the walk starts at the deepest directory on the way to it, and it
follows and keeps only what is above or below the prefix.
-/

namespace YdbSnippets
namespace Tablets

open Python Text Sorting Firsts Matching

section Prefixes

/-- The prefix, with its names below the database. -/
structure IsPrefixBelow (database pre : Str) (parts : List Str) : Prop where
  normal : normalizePath pre = pre
  eq : pre = pathBelow database parts
  isName : ∀ name ∈ parts, IsName name

variable {database pre value : Str} {parts names : List Str}

/-- A prefix that is accepted has names below the database. -/
theorem exists_parts_of_resolvePrefix
    (hdatabase : IsDatabasePath database)
    (hresolved : resolvePrefix database (some value) = .ok (some pre))
    (hnormal : normalizePath pre = pre) :
    ∃ parts, IsPrefixBelow database pre parts := by
  have hmatches : pathMatchesPrefix pre (some database) = true := by
    unfold resolvePrefix at hresolved
    dsimp only at hresolved
    rw [hdatabase.normal] at hresolved
    split_ifs at hresolved with hblank hraw hinside hinside
    · cases hresolved
    · cases hresolved
      exact hinside
    · cases hresolved
      exact hinside
  obtain ⟨⟨parts, hparts⟩, -⟩ := (pathMatchesPrefix_iff pre database).mp hmatches
  have hne : pathComponents pre ≠ [] := by
    rw [← hparts]
    exact List.append_ne_nil_of_left_ne_nil hdatabase.components_ne_nil parts
  refine ⟨parts, hnormal, ?_, ?_⟩
  · have heq := normalizePath_eq pre
    rw [hnormal, absolutePath, if_neg hne, ← hparts] at heq
    rw [hdatabase.pathBelow_eq]
    exact heq
  · intro name hname
    have hmem : name ∈ pathComponents pre := by
      rw [← hparts]
      exact List.mem_append_right _ hname
    exact isName_of_mem_pathComponents hmem

theorem IsPrefixBelow.components
    (h : IsPrefixBelow database pre parts) (hdatabase : IsDatabasePath database) :
    pathComponents pre = pathComponents database ++ parts := by
  rw [pathComponents, h.normal, h.eq, hdatabase.pathBelow_eq]
  refine components_slashed ?_
  intro name hname
  rcases List.mem_append.mp hname with hname | hname
  · exact isName_of_mem_pathComponents hname
  · exact h.isName name hname

/-- A path below the database matches the prefix by its names. -/
theorem IsPrefixBelow.matches_iff
    (h : IsPrefixBelow database pre parts) (hdatabase : IsDatabasePath database)
    (hnames : ∀ name ∈ names, IsPlainName name) :
    pathMatchesPrefix (pathBelow database names) (some pre) = true ↔ parts <+: names := by
  rw [pathMatchesPrefix_iff, h.components hdatabase, hdatabase.components_pathBelow hnames,
    List.prefix_append_right_inj]
  refine and_iff_left fun hnil => ?_
  exact absurd (List.append_eq_nil_iff.mp hnil).1 hdatabase.components_ne_nil

/-- It intersects the prefix if one of the two is above the other. -/
theorem IsPrefixBelow.intersects_iff
    (h : IsPrefixBelow database pre parts) (hdatabase : IsDatabasePath database)
    (hnames : ∀ name ∈ names, IsPlainName name) :
    pathsIntersect (pathBelow database names) (some pre) = true ↔
      parts <+: names ∨ names <+: parts := by
  unfold pathsIntersect
  rw [Bool.or_eq_true, h.matches_iff hdatabase hnames, pathMatchesPrefix_iff,
    h.components hdatabase, hdatabase.components_pathBelow hnames, List.prefix_append_right_inj]
  refine or_congr_right (and_iff_left fun hnil => ?_)
  exact absurd (List.append_eq_nil_iff.mp hnil).1 hdatabase.components_ne_nil

/-- The path is the prefix, or it goes on behind it with a slash. -/
def atOrUnder (pre path : Str) : Bool :=
  path == pre || (pre ++ ['/']).isPrefixOf path

theorem IsPrefixBelow.atOrUnder_eq
    (h : IsPrefixBelow database pre parts) (hdatabase : IsDatabasePath database)
    (hnames : ∀ name ∈ names, IsPlainName name) :
    atOrUnder pre (pathBelow database names) =
      pathMatchesPrefix (pathBelow database names) (some pre) := by
  simp only [pathMatchesPrefix, hdatabase.normal_pathBelow hnames, h.normal, atOrUnder]

end Prefixes

section Trees

variable {py : Interpreter} {printer : Printer} {viewer : SchemeAnswers} {search : Search}
  {database pre start : Str} {parts names : List Str}

/-- The listings are those of a tree below the database. -/
structure IsSchemeTree
    (py : Interpreter) (printer : Printer) (viewer : SchemeAnswers) (database : Str) : Prop where
  finite : FinitelyListed viewer
  plain : ∀ path listing, Lists py printer viewer path listing →
    ∀ child ∈ listing.children, IsPlainName child.name
  /-- A name stands for one object. -/
  unique : ∀ path listing, Lists py printer viewer path listing →
    ∀ child ∈ listing.children, ∀ other ∈ listing.children, child.name = other.name →
      child.schemeType = other.schemeType
  /-- What is listed as a directory is listed in a directory above it, as what it is. -/
  parent : ∀ names name listing, (∀ n ∈ names ++ [name], IsName n) →
    Lists py printer viewer (pathBelow database (names ++ [name])) listing →
    listing.selfType ∈ directoryTypes →
    ∃ above, Lists py printer viewer (pathBelow database names) above ∧
      above.selfType ∈ directoryTypes ∧ ⟨name, listing.selfType⟩ ∈ above.children

theorem IsSchemeTree.namesListed
    (htree : IsSchemeTree py printer viewer database) :
    NamesListed py printer viewer := by
  intro path listing hlists child hchild
  exact (htree.plain path listing hlists child hchild).toIsName

/-- The names of a walk and of a child that it lists. -/
theorem IsSchemeTree.plain_concat
    (htree : IsSchemeTree py printer viewer database) {follows : Str → Child → Bool}
    {path : Str} {listing : Listing} {child : Child}
    (hwalked : Walked py printer viewer follows start names)
    (hlists : Lists py printer viewer path listing) (hchild : child ∈ listing.children) :
    ∀ name ∈ names ++ [child.name], IsPlainName name := by
  intro name hname
  rcases List.mem_append.mp hname with hname | hname
  · exact hwalked.forall_names htree.plain name hname
  · rw [List.mem_singleton.mp hname]
    exact htree.plain path listing hlists child hchild

theorem tableType_not_directory :
    tableType ∉ directoryTypes := by
  decide

theorem IsSchemeTree.tablesAreLeaves
    (htree : IsSchemeTree py printer viewer database) :
    TablesAreLeaves py printer viewer := by
  intro path listing hlists table htable other hother hname htype hdirectory
  have hsame := htree.unique path listing hlists table htable other hother hname
  rw [← hsame, htype] at hdirectory
  exact tableType_not_directory hdirectory

/-- The search of the whole database. -/
def Search.full (search : Search) : Search :=
  { search with pre := none }

/-- No name is hidden from the search. -/
def Search.Shows (search : Search) (names : List Str) : Prop :=
  search.includeSys = true ∨ ∀ name ∈ names, name.head? ≠ some '.'

/-- The full search walks to what is listed as a directory. -/
theorem IsSchemeTree.walked
    (htree : IsSchemeTree py printer viewer database)
    {listing : Listing}
    (hnames : ∀ name ∈ names, IsName name) (hshows : search.Shows names)
    (hlists : Lists py printer viewer (pathBelow database names) listing)
    (hdirectory : listing.selfType ∈ directoryTypes) :
    Walked py printer viewer search.full.walks database names := by
  induction names using List.reverseRecOn generalizing listing with
  | nil => exact .start
  | append_singleton names name ih =>
      obtain ⟨above, habove, hdir, hchild⟩ :=
        htree.parent names name listing hnames hlists hdirectory
      have hwalked := ih (fun n hn => hnames n (List.mem_append_left _ hn))
        (hshows.imp id fun h n hn => h n (List.mem_append_left _ hn)) habove hdir
      refine .child hwalked habove hchild ?_
      have hvisible : search.includeSys = true ∨ name.head? ≠ some '.' :=
        hshows.imp id fun h => h name (List.mem_append_right _ (List.mem_singleton.mpr rfl))
      simpa [Search.walks, Search.full, pathsIntersect, hdirectory] using hvisible

theorem IsDatabasePath.ne_nil
    (h : IsDatabasePath database) :
    database ≠ [] := by
  rintro rfl
  have hhead := (normalizePath_spec []).1
  rw [h.normal] at hhead
  cases hhead

theorem parentPath_append
    (path : Str) {name : Str} (hname : '/' ∉ name) :
    parentPath (path ++ '/' :: name) = path := by
  unfold parentPath
  rw [lastIndex_append_cons '/' path name hname]
  exact List.take_left' rfl

theorem parentPath_pathBelow
    (hdatabase : IsDatabasePath database) {name : Str}
    (hnames : ∀ n ∈ names ++ [name], IsName n) :
    parentPath (pathBelow database (names ++ [name])) = pathBelow database names := by
  have hname := (hnames name (by simp)).noSlash
  rw [hdatabase.pathBelow_eq, hdatabase.pathBelow_eq, ← List.append_assoc, slashed_append,
    slashed_singleton, parentPath_append _ hname]

theorem length_le_pathBelow
    (hdatabase : IsDatabasePath database) (names : List Str) :
    database.length ≤ (pathBelow database names).length := by
  rw [hdatabase.pathBelow_eq, slashed_append, ← hdatabase.eq_slashed, List.length_append]
  exact Nat.le_add_right _ _

/-- The path is listed, as a directory. -/
def ListsDirectory
    (py : Interpreter) (printer : Printer) (viewer : SchemeAnswers) (path : Str) : Prop :=
  ∃ listing, Lists py printer viewer path listing ∧ listing.selfType ∈ directoryTypes

theorem listsDirectory_of_isWalkable
    (hread : ListingsRead py printer viewer) {path : Str}
    (h : isWalkable py printer viewer path = .ok true) :
    ListsDirectory py printer viewer path := by
  unfold isWalkable at h
  cases hlist : viewer.listDirectory path with
  | error exc =>
      rw [hlist] at h
      cases h
  | ok data =>
      rw [hlist] at h
      obtain ⟨selfType, hself, h⟩ := bind_ok_iff.mp h
      obtain ⟨listing, hlisting⟩ := hread path data hlist
      refine ⟨listing, ⟨data, hlist, hlisting⟩, ?_⟩
      obtain ⟨items, -, hlisting⟩ := bind_ok_iff.mp hlisting
      obtain ⟨selfType', hself', hlisting⟩ := bind_ok_iff.mp hlisting
      obtain ⟨children, -, hlisting⟩ := bind_ok_iff.mp hlisting
      rw [← Except.ok.inj hlisting]
      obtain rfl := Except.ok.inj (hself.symm.trans hself')
      exact of_decide_eq_true (Except.ok.inj h)

/-- The walk starts at the database, or at a directory on the way to the prefix. -/
theorem start_of_resolveFrom
    (hdatabase : IsDatabasePath database) (hread : ListingsRead py printer viewer)
    (hnames : ∀ name ∈ names, IsName name)
    (h : resolveFrom py printer viewer database (pathBelow database names) = .ok start) :
    ∃ above, above <+: names ∧ start = pathBelow database above ∧
      (above = [] ∨ ListsDirectory py printer viewer start) := by
  induction names using List.reverseRecOn with
  | nil =>
      refine ⟨[], List.nil_prefix, ?_, Or.inl rfl⟩
      rw [pathBelow_nil, resolveFrom] at h
      obtain ⟨walkable, -, h⟩ := bind_ok_iff.mp h
      have hend : parentPath database = [] ∨ parentPath database = database ∨
          (parentPath database).length < database.length := by
        by_cases hsame : parentPath database = database
        · exact Or.inr (Or.inl hsame)
        · exact Or.inr (Or.inr (length_parentPath_lt hsame))
      rw [if_pos hend] at h
      cases walkable with
      | true => exact (Except.ok.inj h).symm
      | false => exact (Except.ok.inj h).symm
  | append_singleton names name ih =>
      rw [resolveFrom] at h
      obtain ⟨walkable, hwalkable, h⟩ := bind_ok_iff.mp h
      cases walkable with
      | true =>
          obtain rfl := Except.ok.inj h
          exact ⟨names ++ [name], List.prefix_refl _, rfl,
            Or.inr (listsDirectory_of_isWalkable hread hwalkable)⟩
      | false =>
          have hparent := parentPath_pathBelow hdatabase hnames
          have hend : ¬ (pathBelow database names = [] ∨
              pathBelow database names = pathBelow database (names ++ [name]) ∨
              (pathBelow database names).length < database.length) := by
            rintro (hnil | hsame | hshort)
            · have hlength := length_le_pathBelow hdatabase names
              rw [hnil] at hlength
              exact hdatabase.ne_nil (List.eq_nil_of_length_eq_zero (Nat.le_zero.mp hlength))
            · exact absurd (pathBelow_inj (fun n hn => hnames n (List.mem_append_left _ hn))
                hnames hsame) (by simp)
            · exact absurd (length_le_pathBelow hdatabase names) (Nat.not_le.mpr hshort)
          rw [hparent, if_neg Bool.false_ne_true, if_neg hend] at h
          obtain ⟨above, habove, hstart⟩ :=
            ih (fun n hn => hnames n (List.mem_append_left _ hn)) h
          exact ⟨above, habove.trans (List.prefix_append _ _), hstart⟩

theorem start_of_resolveStartPath
    (hdatabase : IsDatabasePath database) (hread : ListingsRead py printer viewer)
    (hpre : IsPrefixBelow database pre parts)
    (h : resolveStartPath py printer viewer database (some pre) = .ok start) :
    ∃ above, above <+: parts ∧ start = pathBelow database above ∧
      (above = [] ∨ ListsDirectory py printer viewer start) := by
  unfold resolveStartPath at h
  dsimp only at h
  split_ifs at h with hsame
  · obtain rfl := Except.ok.inj h
    exact ⟨[], List.nil_prefix, rfl, Or.inl rfl⟩
  · rw [hpre.eq] at h
    exact start_of_resolveFrom hdatabase hread hpre.isName h

end Trees

section Walking

variable {py : Interpreter} {printer : Printer} {viewer : SchemeAnswers} {search : Search}
  {database pre : Str} {parts above names whole : List Str}

theorem Search.full_walks
    {path : Str} {child : Child} (h : search.walks path child = true) :
    search.full.walks path child = true := by
  simp only [Search.walks, Bool.and_eq_true] at h
  simp only [Search.walks, Search.full, pathsIntersect, Bool.and_true, Bool.and_eq_true]
  exact h.1

/-- The narrowed walk goes where the full one goes. -/
theorem Walked.full
    (habove : Walked py printer viewer search.full.walks database above)
    (hnames : ∀ name ∈ above, IsName name)
    (h : Walked py printer viewer search.walks (pathBelow database above) names) :
    Walked py printer viewer search.full.walks database (above ++ names) := by
  induction h with
  | start =>
      rw [List.append_nil]
      exact habove
  | child hwalked hlists hchild hfollows ih =>
      rw [pathBelow_pathBelow _ _ hnames] at hlists hfollows
      rw [← List.append_assoc]
      exact .child ih hlists hchild (Search.full_walks hfollows)

theorem mem_visitListing_iff
    {search : Search} {path : Str} {listing : Listing} {object : SchemeObject} :
    object ∈ (search.visitListing path listing).objects ↔
      (search.selects path listing.selfType = true ∧ object = ⟨path, listing.selfType⟩) ∨
      ∃ child ∈ listing.children,
        search.selects (joinPath path child.name) child.schemeType = true ∧
          object = ⟨joinPath path child.name, child.schemeType⟩ := by
  unfold Search.visitListing
  rw [List.mem_append, List.mem_map]
  refine or_congr ?_ (exists_congr fun child => ?_)
  · split_ifs with hselects
    · simp [hselects]
    · simp [hselects]
  · rw [List.mem_filter, and_assoc]
    exact and_congr_right fun _ => and_congr_right fun _ => eq_comm

/-- A search with a prefix, and where its walk starts. -/
structure NarrowedWalk
    (py : Interpreter) (printer : Printer) (viewer : SchemeAnswers) (search : Search)
    (database pre : Str) (parts above : List Str) : Prop where
  isDatabase : IsDatabasePath database
  tree : IsSchemeTree py printer viewer database
  isPrefix : IsPrefixBelow database pre parts
  searched : search.pre = some pre
  onWay : above <+: parts
  directory : above = [] ∨ ListsDirectory py printer viewer (pathBelow database above)
  walked : Walked py printer viewer search.full.walks database above

variable (h : NarrowedWalk py printer viewer search database pre parts above)

include h

theorem NarrowedWalk.isName :
    ∀ name ∈ above, IsName name :=
  h.walked.isName h.tree.namesListed

/-- On the way to what is below the prefix, and on the way to the prefix, the narrowed walk
goes where the full one goes. -/
theorem NarrowedWalk.walks
    (hwalked : Walked py printer viewer search.full.walks database (above ++ names))
    (hwhole : above ++ names <+: whole) (hparts : parts <+: whole) :
    Walked py printer viewer search.walks (pathBelow database above) names := by
  induction names using List.reverseRecOn with
  | nil => exact .start
  | append_singleton names name ih =>
      rw [← List.append_assoc] at hwalked hwhole
      have hplain := hwalked.forall_names h.tree.plain
      obtain ⟨hbefore, listing, child, hlists, hchild, rfl, hfollows⟩ := hwalked.of_concat
      have hnarrowed := ih hbefore ((List.prefix_append _ _).trans hwhole)
      have hintersects : pathsIntersect
          (joinPath (pathBelow database (above ++ names)) child.name) search.pre = true := by
        rw [h.searched,
          joinPath_pathBelow fun n hn => (hplain n (List.mem_append_left _ hn)).toIsName,
          h.isPrefix.intersects_iff h.isDatabase hplain]
        exact List.prefix_or_prefix_of_prefix hparts hwhole
      rw [← pathBelow_pathBelow database names h.isName] at hlists hfollows hintersects
      refine .child hnarrowed hlists hchild ?_
      simp only [Search.walks, Search.full, Bool.and_eq_true] at hfollows
      simp only [Search.walks, Bool.and_eq_true]
      exact ⟨hfollows.1, hintersects⟩

/-- A visit with the prefix keeps the objects that match it. -/
theorem NarrowedWalk.mem_visitListing_iff
    {path : Str} {listing : Listing} {object : SchemeObject} :
    object ∈ (search.visitListing path listing).objects ↔
      object ∈ (search.full.visitListing path listing).objects ∧
        pathMatchesPrefix object.path (some pre) = true := by
  have hselects : ∀ path schemeType, search.selects path schemeType = true ↔
      search.full.selects path schemeType = true ∧
        pathMatchesPrefix path (some pre) = true := by
    intro path schemeType
    unfold Search.selects Search.full
    rw [h.searched, Bool.and_eq_true, Bool.and_eq_true]
    exact and_congr_left fun _ => (and_iff_left rfl).symm
  rw [Tablets.mem_visitListing_iff, Tablets.mem_visitListing_iff]
  constructor
  · rintro (⟨hself, rfl⟩ | ⟨child, hchild, hchosen, rfl⟩)
    · obtain ⟨hfull, hmatches⟩ := (hselects _ _).mp hself
      exact ⟨Or.inl ⟨hfull, rfl⟩, hmatches⟩
    · obtain ⟨hfull, hmatches⟩ := (hselects _ _).mp hchosen
      exact ⟨Or.inr ⟨child, hchild, hfull, rfl⟩, hmatches⟩
  · rintro ⟨⟨hfull, rfl⟩ | ⟨child, hchild, hfull, rfl⟩, hmatches⟩
    · exact Or.inl ⟨(hselects _ _).mpr ⟨hfull, hmatches⟩, rfl⟩
    · exact Or.inr ⟨child, hchild, (hselects _ _).mpr ⟨hfull, hmatches⟩, rfl⟩

/-- An object that a walk finds in the listing of a directory. -/
def ObjectAt
    (py : Interpreter) (printer : Printer) (viewer : SchemeAnswers) (search : Search)
    (start : Str) (object : SchemeObject) : Prop :=
  ∃ names listing, Walked py printer viewer search.walks start names ∧
    Lists py printer viewer (pathBelow start names) listing ∧
    object ∈ (search.visitListing (pathBelow start names) listing).objects

/-- What a directory above the start lists as the start is the start's own type. -/
theorem NarrowedWalk.listed_as_directory
    {name : Str} {listing : Listing} {child : Child}
    (heq : above = names ++ [name])
    (hlists : Lists py printer viewer (pathBelow database names) listing)
    (hchild : child ∈ listing.children) (hname : child.name = name) :
    ∃ self, Lists py printer viewer (pathBelow database above) self ∧
      self.selfType = child.schemeType ∧ child.schemeType ∈ directoryTypes := by
  rcases h.directory with hnil | ⟨self, hself, hdirectory⟩
  · rw [hnil] at heq
    simp at heq
  · have hisName := h.isName
    have hself' := hself
    rw [heq] at hself' hisName
    obtain ⟨listing', hlists', -, hmem⟩ := h.tree.parent names name self hisName hself' hdirectory
    obtain rfl := hlists'.unique hlists
    have hsame := h.tree.unique _ _ hlists child hchild _ hmem hname
    exact ⟨self, hself, hsame.symm, hsame ▸ hdirectory⟩

/-- The narrowed walk finds the objects of the full walk that match the prefix. -/
theorem NarrowedWalk.objectAt_iff
    {object : SchemeObject} :
    ObjectAt py printer viewer search (pathBelow database above) object ↔
      ObjectAt py printer viewer search.full database object ∧
        pathMatchesPrefix object.path (some pre) = true := by
  constructor
  · rintro ⟨names, listing, hwalked, hlists, hobject⟩
    rw [pathBelow_pathBelow database names h.isName] at hlists hobject
    obtain ⟨hfull, hmatches⟩ := h.mem_visitListing_iff.mp hobject
    exact ⟨⟨above ++ names, listing, h.walked.full h.isName hwalked, hlists, hfull⟩, hmatches⟩
  · rintro ⟨⟨names, listing, hwalked, hlists, hfull⟩, hmatches⟩
    have hplain := hwalked.forall_names h.tree.plain
    -- a directory below the start, on the way to something that matches
    have hbelow : ∀ more whole, names = above ++ more → names <+: whole → parts <+: whole →
        ObjectAt py printer viewer search (pathBelow database above) object := by
      rintro more whole rfl hwhole hparts
      refine ⟨more, listing, h.walks hwalked hwhole hparts, ?_, ?_⟩
      · rw [pathBelow_pathBelow database more h.isName]
        exact hlists
      · rw [pathBelow_pathBelow database more h.isName]
        exact h.mem_visitListing_iff.mpr ⟨hfull, hmatches⟩
    rcases Tablets.mem_visitListing_iff.mp hfull with ⟨hself, rfl⟩ | ⟨child, hchild, hchosen, rfl⟩
    · have hparts := (h.isPrefix.matches_iff h.isDatabase hplain).mp hmatches
      obtain ⟨more, hmore⟩ := h.onWay.trans hparts
      exact hbelow more names hmore.symm (List.prefix_refl _) hparts
    · have hplain' := h.tree.plain_concat hwalked hlists hchild
      have hpath : joinPath (pathBelow database names) child.name =
          pathBelow database (names ++ [child.name]) :=
        joinPath_pathBelow (fun n hn => (hplain n hn).toIsName) child.name
      rw [hpath] at hmatches
      have hparts := (h.isPrefix.matches_iff h.isDatabase hplain').mp hmatches
      rcases List.prefix_concat_iff.mp (h.onWay.trans hparts) with heq | ⟨more, hmore⟩
      · -- the child is the start: the narrowed walk finds it as the directory that it visits
        obtain ⟨self, hself, htype, -⟩ := h.listed_as_directory heq hlists hchild rfl
        refine ⟨[], self, .start, hself, h.mem_visitListing_iff.mpr ⟨?_, ?_⟩⟩
        · refine Tablets.mem_visitListing_iff.mpr (Or.inl ?_)
          rw [pathBelow_nil, htype, heq, ← hpath]
          exact ⟨hchosen, rfl⟩
        · rw [hpath]
          exact hmatches
      · exact hbelow more _ hmore.symm (List.prefix_append _ _) hparts

theorem NarrowedWalk.descends_iff
    {path : Str} {child : Child} :
    search.descends path child = true ↔
      search.full.descends path child = true ∧
        pathsIntersect (joinPath path child.name) (some pre) = true := by
  have hfull : search.full.descends path child =
      ((search.wantCdc || search.wantIndexTablets) && child.schemeType == tableType) :=
    Bool.and_true _
  rw [hfull, Search.descends, h.searched, Bool.and_eq_true]

/-- A table is not on the way to the start, and not the start itself. -/
theorem NarrowedWalk.not_above
    {name table : Str}
    (hat : TableAt py printer viewer search.full database names name table) :
    ¬ names ++ [name] <+: above := by
  rintro ⟨more, hmore⟩
  obtain ⟨listing, hlists, child, hchild, hname, hdescends⟩ := hat.listed
  have hwalked := h.walked
  rw [← hmore] at hwalked
  obtain ⟨-, listing', directory, hlists', hdirectory, hname', hwalks⟩ :=
    hwalked.of_append.of_concat
  obtain rfl := hlists.unique hlists'
  exact h.tree.tablesAreLeaves _ _ hlists child hchild directory hdirectory
    (hname.trans hname'.symm) (Search.table_of_descends hdescends)
    (Search.directory_of_walks hwalks)

/-- A table of the full walk is searched by the narrowed one if it intersects the prefix. -/
theorem NarrowedWalk.tableAt_iff
    {table : Str} :
    (∃ names name, TableAt py printer viewer search (pathBelow database above) names name table) ↔
      (∃ names name, TableAt py printer viewer search.full database names name table) ∧
        pathsIntersect table (some pre) = true := by
  constructor
  · rintro ⟨names, name, hat⟩
    obtain ⟨listing, hlists, child, hchild, rfl, hdescends⟩ := hat.listed
    have hpath := hat.path_eq
    obtain ⟨hfull, hintersects⟩ := h.descends_iff.mp hdescends
    rw [joinPath_pathBelow (hat.walked.isName h.tree.namesListed), ← hpath] at hintersects
    rw [pathBelow_pathBelow database names h.isName] at hlists hfull
    rw [pathBelow_pathBelow database _ h.isName, ← List.append_assoc] at hpath
    exact ⟨⟨above ++ names, child.name, h.walked.full h.isName hat.walked,
      ⟨listing, hlists, child, hchild, rfl, hfull⟩, hpath⟩, hintersects⟩
  · rintro ⟨⟨names, name, hat⟩, hintersects⟩
    have hpath := hat.path_eq
    obtain ⟨listing, hlists, child, hchild, rfl, hfull⟩ := hat.listed
    have hplain := h.tree.plain_concat hat.walked hlists hchild
    have hcompared := hintersects
    rw [hpath, h.isPrefix.intersects_iff h.isDatabase hplain] at hcompared
    -- the table and the prefix are on one way, and so is the start
    obtain ⟨whole, hwhole, hparts⟩ :
        ∃ whole, names ++ [child.name] <+: whole ∧ parts <+: whole := by
      rcases hcompared with hparts | htable
      · exact ⟨_, List.prefix_refl _, hparts⟩
      · exact ⟨parts, htable, List.prefix_refl _⟩
    obtain ⟨more, rfl⟩ : above <+: names := by
      rcases List.prefix_or_prefix_of_prefix (h.onWay.trans hparts) hwhole with habove | habove
      · rcases List.prefix_concat_iff.mp habove with heq | hnames
        · exact absurd (heq ▸ List.prefix_refl _) (h.not_above hat)
        · exact hnames
      · exact absurd habove (h.not_above hat)
    refine ⟨more, child.name, ?_, ⟨listing, ?_, child, hchild, rfl, ?_⟩, ?_⟩
    · exact h.walks hat.walked ((List.prefix_append _ _).trans hwhole) hparts
    · rw [pathBelow_pathBelow database more h.isName]
      exact hlists
    · rw [pathBelow_pathBelow database more h.isName]
      refine h.descends_iff.mpr ⟨hfull, ?_⟩
      rw [joinPath_pathBelow (hat.walked.isName h.tree.namesListed), ← hpath]
      exact hintersects
    · rw [pathBelow_pathBelow database _ h.isName, ← List.append_assoc]
      exact hpath

end Walking

end Tablets
end YdbSnippets

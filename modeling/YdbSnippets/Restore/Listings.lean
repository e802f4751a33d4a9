import YdbSnippets.Python.Dict
import YdbSnippets.Python.Text

/-!
# Listings of a bucket

The store lists a bucket page by page.  `BotoS3.list_keys` of the scheme fixer and
`locateTables` of the restore tool follow the tokens of the pages.
-/

namespace YdbSnippets
namespace Restore

open Python

section Definitions

/-- A reply of `list_objects_v2`: the keys of `Contents`, `IsTruncated` and
`NextContinuationToken`. -/
structure Page where
  contents : Option (List (Option Str))
  isTruncated : Bool
  nextContinuationToken : Option Str

/-- The exceptions of a listing. -/
inductive ListingError
  | clientError
  | schemeError (message : String)
deriving DecidableEq

/-- What a listing did: the tokens it sent, the first request being without one, and how
it ended. -/
structure Listing (α : Type) where
  requests : List (Option Str)
  outcome : Except ListingError α

/-- `list_objects_v2` for one bucket and one prefix. -/
abbrev Serve := Option Str → Except ListingError Page

/-- The listing after one more request in front. -/
def Listing.after {α β : Type} (token : Option Str) (f : α → β) (listing : Listing α) :
    Listing β :=
  ⟨token :: listing.requests, f <$> listing.outcome⟩

/-- The keys that `list_keys` yields for a page. -/
def keysOf (page : Page) : List Str :=
  (page.contents.getD []).filterMap fun key => key.filter fun k => !k.isEmpty

/-- The loop of `BotoS3.list_keys`, or `none` if it is still running after this many
requests. -/
def listKeys (serve : Serve) : Nat → Option Str → Option (Listing (List Str))
  | 0, _ => none
  | fuel + 1, token =>
      match serve token with
      | .error e => some ⟨[token], .error e⟩
      | .ok page =>
          if !page.isTruncated then some ⟨[token], .ok (keysOf page)⟩
          else
            match page.nextContinuationToken with
            | none | some [] =>
                some ⟨[token], .error (.schemeError
                  "листинг S3 оборван: нет NextContinuationToken")⟩
            | some next =>
                (listKeys serve fuel (some next)).map (Listing.after token (keysOf page ++ ·))

/-- `suffix` -/
def schemeSuffix : Str := "/scheme.pb".toList

/-- The prefix as `locateTables` uses it. -/
def scanPrefix (pre : Str) : Str :=
  let pre := if endsWith pre ['/'] then pre else pre ++ ['/']
  if pre.head? = some '/' then pre.drop 1 else pre

/-- `key[:-len(suffix)]` -/
def dataPath (key : Str) : Str :=
  key.take (key.length - schemeSuffix.length)

/-- `key[len(prefix):-len(suffix)]` -/
def tableName (pre key : Str) : Str :=
  (dataPath key).drop pre.length

/-- What `locateTables` does with a key. -/
def addKey (pre : Str) (tables : Dict Str Str) : Option Str → Dict Str Str
  | none => tables
  | some key =>
      if endsWith key schemeSuffix then tables.set (tableName pre key) (dataPath key)
      else tables

/-- What `locateTables` does with a page. -/
def addPage (pre : Str) (tables : Dict Str Str) (page : Page) : Dict Str Str :=
  (page.contents.getD []).foldl (addKey pre) tables

/-- The loop of `locateTables`, or `none` if it is still running after this many
requests. -/
def locateLoop (serve : Serve) (pre : Str) :
    Nat → Option Str → Dict Str Str → Option (Listing (Dict Str Str))
  | 0, _, _ => none
  | fuel + 1, prevToken, tables =>
      match serve prevToken with
      | .error e => some ⟨[prevToken], .error e⟩
      | .ok page =>
          let tables := addPage pre tables page
          if !page.isTruncated then some ⟨[prevToken], .ok tables⟩
          else
            (locateLoop serve pre fuel page.nextContinuationToken tables).map
              (Listing.after prevToken id)

/-- `locateTables` -/
def locateTables (serve : Serve) (pre : Str) (fuel : Nat) : Option (Listing (Dict Str Str)) :=
  locateLoop serve (scanPrefix pre) fuel none Dict.empty

/-- The pages that the store serves from a request on.  The token of a page that is
truncated leads to the next page; the last one is not truncated or has no token. -/
def ServesFrom (serve : Serve) : Option Str → List Page → Prop
  | _, [] => False
  | token, [page] =>
      serve token = .ok page ∧ (page.isTruncated = true → page.nextContinuationToken = none)
  | token, page :: rest =>
      serve token = .ok page ∧ page.isTruncated = true ∧
        ∃ next, page.nextContinuationToken = some next ∧ ServesFrom serve (some next) rest

/-- No page is truncated without a token. -/
def WellFormed (pages : List Page) : Prop :=
  ∀ page ∈ pages, page.isTruncated = true → page.nextContinuationToken ≠ none

/-- The page is not truncated, or its token is not empty. -/
def HasUsableToken (page : Page) : Prop :=
  page.isTruncated = true → ∃ next, page.nextContinuationToken = some next ∧ next ≠ []

/-- The tables that `locateTables` finds among the keys of the pages. -/
def tablesOf (pre : Str) (pages : List Page) : Dict Str Str :=
  (pages.flatMap fun page => page.contents.getD []).foldl (addKey (scanPrefix pre)) Dict.empty

/-- The keys of all objects of the pages, in the order of the listing. -/
def pageKeys (pages : List Page) : List Str :=
  pages.flatMap fun page => (page.contents.getD []).filterMap id

/-- Every key of the pages is listed, in their order, except that no object has an empty
key. -/
def SeesKeys (pages : List Page) (keys : List Str) : Prop :=
  keys = (pageKeys pages).filter fun key => key ≠ []

/-- Every directory with a `scheme.pb` is found under the rest of its path behind the
prefix; of several with the same rest it is the one that is listed last. -/
def SeesTables (pre : Str) (pages : List Page) (tables : Dict Str Str) : Prop :=
  ∀ name path, tables.get? name = some path ↔
    ∃ before after, pageKeys pages = before ++ (path ++ "/scheme.pb".toList) :: after ∧
      path.drop (scanPrefix pre).length = name ∧
      ∀ other, other ++ "/scheme.pb".toList ∈ after →
        other.drop (scanPrefix pre).length ≠ name

/-- The run ends, it requests no page twice, it sees what all pages contain if the pages
are well formed, and it fails if they are not. -/
def ListsOnce {α : Type} (run : Nat → Option (Listing α)) (pages : List Page)
    (sees : α → Prop) : Prop :=
  ∃ fuel listing, run fuel = some listing ∧ listing.requests.Nodup ∧
    (WellFormed pages → ∃ all, listing.outcome = .ok all ∧ sees all) ∧
    (¬ WellFormed pages → ∃ e, listing.outcome = .error e)

end Definitions

section Pages

variable {serve : Serve}

/-- The requests that lead to the pages. -/
def requestsFrom : Option Str → List Page → List (Option Str)
  | _, [] => []
  | token, page :: rest => token :: requestsFrom page.nextContinuationToken rest

/-- The pages from a request on are determined. -/
theorem ServesFrom.unique
    {token : Option Str} {pages pages' : List Page}
    (h : ServesFrom serve token pages) (h' : ServesFrom serve token pages') :
    pages = pages' := by
  induction pages generalizing token pages' with
  | nil => exact h.elim
  | cons page rest ih =>
      cases pages' with
      | nil => exact h'.elim
      | cons page' rest' =>
          have hserve : serve token = .ok page := by
            cases rest with
            | nil => exact h.1
            | cons _ _ => exact h.1
          have hserve' : serve token = .ok page' := by
            cases rest' with
            | nil => exact h'.1
            | cons _ _ => exact h'.1
          rcases Except.ok.inj (hserve.symm.trans hserve') with rfl
          cases rest with
          | nil =>
              cases rest' with
              | nil => rfl
              | cons _ _ =>
                  obtain ⟨-, htruncated, next, hnext, -⟩ := h'
                  rw [h.2 htruncated] at hnext
                  cases hnext
          | cons _ _ =>
              obtain ⟨-, htruncated, next, hnext, hrest⟩ := h
              cases rest' with
              | nil =>
                  rw [h'.2 htruncated] at hnext
                  cases hnext
              | cons _ _ =>
                  obtain ⟨-, -, next', hnext', hrest'⟩ := h'
                  rcases Option.some.inj (hnext.symm.trans hnext') with rfl
                  rw [ih hrest hrest']

/-- What is requested leads to a page and those behind it. -/
theorem exists_servesFrom_of_mem
    {token : Option Str} {pages : List Page} (h : ServesFrom serve token pages)
    {request : Option Str} (hmem : request ∈ requestsFrom token pages) :
    ∃ behind, ServesFrom serve request behind ∧ behind.length ≤ pages.length := by
  induction pages generalizing token with
  | nil => cases hmem
  | cons page rest ih =>
      rcases List.mem_cons.mp hmem with rfl | hmem
      · exact ⟨page :: rest, h, le_rfl⟩
      · cases rest with
        | nil => cases hmem
        | cons _ _ =>
            obtain ⟨-, -, next, hnext, hrest⟩ := h
            rw [hnext] at hmem
            obtain ⟨behind, hbehind, hle⟩ := ih hrest hmem
            exact ⟨behind, hbehind, hle.trans (Nat.le_succ _)⟩

/-- No token leads back to a page before it. -/
theorem nodup_requestsFrom
    {token : Option Str} {pages : List Page} (h : ServesFrom serve token pages) :
    (requestsFrom token pages).Nodup := by
  induction pages generalizing token with
  | nil => exact List.nodup_nil
  | cons page rest ih =>
      cases rest with
      | nil => exact List.nodup_singleton _
      | cons second rest =>
          have hall := h
          obtain ⟨-, -, next, hnext, hrest⟩ := h
          rw [requestsFrom, hnext]
          refine List.nodup_cons.mpr ⟨?_, ih hrest⟩
          intro hmem
          obtain ⟨behind, hbehind, hle⟩ := exists_servesFrom_of_mem hrest hmem
          rw [← hall.unique hbehind] at hle
          exact absurd hle (by simp)

end Pages

section Contents

/-- The keys that are yielded for the pages. -/
theorem seesKeys_flatMap (pages : List Page) :
    SeesKeys pages (pages.flatMap keysOf) := by
  unfold SeesKeys pageKeys
  induction pages with
  | nil => rfl
  | cons page pages ih =>
      rw [List.flatMap_cons, List.flatMap_cons, List.filter_append, ih, keysOf,
        List.filter_filterMap]
      refine congrArg (· ++ _) (List.filterMap_congr fun key _ => ?_)
      cases key with
      | none => rfl
      | some k => cases k <;> rfl

theorem endsWith_iff
    {s suffix : Str} :
    endsWith s suffix = true ↔ ∃ rest, s = rest ++ suffix := by
  unfold endsWith
  rw [List.isSuffixOf_iff_suffix]
  constructor
  · rintro ⟨rest, rfl⟩
    exact ⟨rest, rfl⟩
  · rintro ⟨rest, rfl⟩
    exact ⟨rest, rfl⟩

/-- A key that ends with the suffix is its data path and the suffix. -/
theorem eq_dataPath_append
    {key : Str} (h : endsWith key schemeSuffix = true) :
    key = dataPath key ++ schemeSuffix := by
  obtain ⟨rest, rfl⟩ := endsWith_iff.mp h
  unfold dataPath
  rw [List.length_append, Nat.add_sub_cancel, List.take_left' rfl]

theorem dataPath_append (rest : Str) :
    dataPath (rest ++ schemeSuffix) = rest := by
  unfold dataPath
  rw [List.length_append, Nat.add_sub_cancel, List.take_left' rfl]

/-- The last key of a list that has a property, after one more key. -/
theorem exists_last_concat_iff
    {α : Type} {P : α → Prop} {keys : List α} {key found : α} :
    (∃ before after, keys ++ [key] = before ++ found :: after ∧ P found ∧
        ∀ other ∈ after, ¬ P other) ↔
      (P key ∧ found = key) ∨ (¬ P key ∧
        ∃ before after, keys = before ++ found :: after ∧ P found ∧
          ∀ other ∈ after, ¬ P other) := by
  constructor
  · rintro ⟨before, after, hkeys, hfound, hlast⟩
    rcases List.eq_nil_or_concat after with rfl | ⟨init, last, rfl⟩
    · obtain ⟨-, hkey⟩ := List.append_inj' hkeys rfl
      rw [(List.cons.inj hkey).1]
      exact Or.inl ⟨hfound, rfl⟩
    · rw [List.concat_eq_append, ← List.cons_append, ← List.append_assoc] at hkeys
      obtain ⟨hinit, hkey⟩ := List.append_inj' hkeys rfl
      rw [(List.cons.inj hkey).1]
      exact Or.inr ⟨hlast _ (by simp), before, init, hinit, hfound,
        fun other hother => hlast other (by simp [hother])⟩
  · rintro (⟨hkey, rfl⟩ | ⟨hkey, before, after, rfl, hfound, hlast⟩)
    · exact ⟨keys, [], rfl, hkey, fun _ h => by cases h⟩
    · refine ⟨before, after ++ [key], by simp, hfound, ?_⟩
      intro other hother
      rcases List.mem_append.mp hother with hother | hother
      · exact hlast other hother
      · rw [List.mem_singleton.mp hother]
        exact hkey

/-- The key is a `scheme.pb` whose directory has this name. -/
def IsTable (pre name key : Str) : Prop :=
  ∃ path, key = path ++ schemeSuffix ∧ path.drop pre.length = name

/-- An assignment for each table, so that the last one under a name stays. -/
theorem get?_addKeys_iff
    {pre : Str} (keys : List (Option Str)) {name path : Str} :
    (keys.foldl (addKey pre) Dict.empty).get? name = some path ↔
      ∃ before after, keys.filterMap id = before ++ (path ++ schemeSuffix) :: after ∧
        IsTable pre name (path ++ schemeSuffix) ∧ ∀ other ∈ after, ¬ IsTable pre name other := by
  induction keys using List.reverseRecOn with
  | nil => simp
  | append_singleton keys key ih =>
      rw [List.foldl_append, List.filterMap_append]
      cases key with
      | none =>
          rw [List.filterMap_cons_none (by rfl), List.filterMap_nil, List.append_nil]
          exact ih
      | some key =>
          rw [List.filterMap_cons_some (by rfl), List.filterMap_nil, exists_last_concat_iff, ← ih]
          simp only [List.foldl_cons, List.foldl_nil, addKey]
          by_cases hends : endsWith key schemeSuffix = true
          · have hkey := eq_dataPath_append hends
            have htable : IsTable pre name key ↔ tableName pre key = name := by
              constructor
              · rintro ⟨path, hpath, hname⟩
                rw [hpath, tableName, dataPath_append]
                exact hname
              · exact fun hname => ⟨dataPath key, hkey, hname⟩
            rw [if_pos hends, Dict.get?_set, htable]
            by_cases hname : name = tableName pre key
            · subst hname
              simp only [if_true, Option.some.injEq, true_and, not_true, false_and, or_false]
              constructor
              · rintro rfl
                exact hkey.symm
              · intro hpath
                rw [← hpath, dataPath_append]
            · rw [if_neg hname]
              simp [Ne.symm hname]
          · have hno : ¬ IsTable pre name key := by
              rintro ⟨path, hpath, -⟩
              exact hends (endsWith_iff.mpr ⟨path, hpath⟩)
            rw [if_neg hends]
            simp [hno]

theorem seesTables_tablesOf (pre : Str) (pages : List Page) :
    SeesTables pre pages (tablesOf pre pages) := by
  intro name path
  have hkeys : pageKeys pages =
      (pages.flatMap fun page => page.contents.getD []).filterMap id := by
    rw [pageKeys, List.filterMap_flatMap]
  rw [tablesOf, get?_addKeys_iff, ← hkeys]
  constructor
  · rintro ⟨before, after, hall, ⟨path', hpath, hname⟩, hlast⟩
    rw [← List.append_cancel_right hpath] at hname
    exact ⟨before, after, hall, hname, fun other hother hsame =>
      hlast _ hother ⟨other, rfl, hsame⟩⟩
  · rintro ⟨before, after, hall, hname, hlast⟩
    refine ⟨before, after, hall, ⟨path, rfl, hname⟩, ?_⟩
    rintro _ hother ⟨other, rfl, hsame⟩
    exact hlast other hother hsame

end Contents

section ListKeys

variable {serve : Serve}

/-- A run that has ended does not change with more steps. -/
theorem listKeys_mono
    {fuel : Nat} {token : Option Str} {listing : Listing (List Str)}
    (h : listKeys serve fuel token = some listing) (more : Nat) :
    listKeys serve (fuel + more) token = some listing := by
  induction fuel generalizing token listing with
  | zero => cases h
  | succ fuel ih =>
      rw [Nat.succ_add, listKeys]
      rw [listKeys] at h
      cases hserve : serve token with
      | error e =>
          rw [hserve] at h
          exact h
      | ok page =>
          simp only [hserve] at h ⊢
          cases htruncated : page.isTruncated with
          | false =>
              rw [htruncated] at h
              exact h
          | true =>
              rw [htruncated] at h
              match hnext : page.nextContinuationToken with
              | none =>
                  rw [hnext] at h
                  exact h
              | some [] =>
                  rw [hnext] at h
                  exact h
              | some (c :: next) =>
                  rw [hnext] at h
                  obtain ⟨rest, hrest, rfl⟩ := Option.map_eq_some_iff.mp h
                  exact Option.map_eq_some_iff.mpr ⟨rest, ih hrest, rfl⟩

theorem listKeys_unique
    {fuel fuel' : Nat} {token : Option Str} {listing listing' : Listing (List Str)}
    (h : listKeys serve fuel token = some listing)
    (h' : listKeys serve fuel' token = some listing') :
    listing = listing' := by
  have hlarge := listKeys_mono h fuel'
  have hlarge' := listKeys_mono h' fuel
  rw [Nat.add_comm] at hlarge'
  exact Option.some.inj (hlarge.symm.trans hlarge')

/-- The loop goes through the pages up to the first truncated one whose token it does
not accept. -/
theorem listKeys_spec
    {token : Option Str} {pages : List Page} (h : ServesFrom serve token pages) :
    ∃ requests outcome, listKeys serve pages.length token = some ⟨requests, outcome⟩ ∧
      requests <+: requestsFrom token pages ∧
      ((∀ page ∈ pages, HasUsableToken page) → outcome = .ok (pages.flatMap keysOf)) ∧
      (¬ (∀ page ∈ pages, HasUsableToken page) → ∃ e, outcome = .error e) := by
  induction pages generalizing token with
  | nil => exact h.elim
  | cons page rest ih =>
      have hserve : serve token = .ok page := by
        cases rest with
        | nil => exact h.1
        | cons _ _ => exact h.1
      rw [List.length_cons, listKeys]
      simp only [hserve]
      have hfirst : [token] <+: requestsFrom token (page :: rest) :=
        ⟨requestsFrom page.nextContinuationToken rest, rfl⟩
      cases htruncated : page.isTruncated with
      | false =>
          cases rest with
          | cons _ _ =>
              rw [h.2.1] at htruncated
              cases htruncated
          | nil =>
              refine ⟨[token], .ok (keysOf page), rfl, hfirst, fun _ => by simp, ?_⟩
              intro hnot
              refine (hnot fun other hother htrue => ?_).elim
              rw [List.mem_singleton.mp hother, htruncated] at htrue
              cases htrue
      | true =>
          have hbad : ∀ text, page.nextContinuationToken.getD [] = [] →
              ∃ requests outcome,
                some (⟨[token], .error (.schemeError text)⟩ : Listing (List Str)) =
                  some ⟨requests, outcome⟩ ∧
                requests <+: requestsFrom token (page :: rest) ∧
                ((∀ other ∈ page :: rest, HasUsableToken other) →
                  outcome = .ok ((page :: rest).flatMap keysOf)) ∧
                (¬ (∀ other ∈ page :: rest, HasUsableToken other) →
                  ∃ e, outcome = .error e) := by
            intro text hempty
            refine ⟨[token], _, rfl, hfirst, ?_, fun _ => ⟨_, rfl⟩⟩
            intro hall
            obtain ⟨next, hnext, hne⟩ := hall page List.mem_cons_self htruncated
            rw [hnext] at hempty
            exact (hne hempty).elim
          match hnext : page.nextContinuationToken with
          | none => exact hbad _ (by rw [hnext]; rfl)
          | some [] => exact hbad _ (by rw [hnext]; rfl)
          | some (c :: next) =>
              cases rest with
              | nil =>
                  rw [h.2 htruncated] at hnext
                  cases hnext
              | cons second rest =>
                  obtain ⟨-, -, next', hnext', hrest⟩ := h
                  rcases Option.some.inj (hnext.symm.trans hnext') with rfl
                  obtain ⟨requests, outcome, hrun, hsub, hgood, hfail⟩ := ih hrest
                  have husable : HasUsableToken page :=
                    fun _ => ⟨c :: next, hnext, List.cons_ne_nil _ _⟩
                  refine ⟨token :: requests, (keysOf page ++ ·) <$> outcome, ?_, ?_, ?_, ?_⟩
                  · exact Option.map_eq_some_iff.mpr ⟨_, hrun, rfl⟩
                  · rw [requestsFrom, hnext]
                    exact List.cons_prefix_cons.mpr ⟨rfl, hsub⟩
                  · intro hall
                    rw [hgood fun other hother => hall other (List.mem_cons_of_mem _ hother)]
                    rfl
                  · intro hnot
                    obtain ⟨e, rfl⟩ := hfail fun hall =>
                      hnot (List.forall_mem_cons.mpr ⟨husable, hall⟩)
                    exact ⟨e, rfl⟩

theorem wellFormed_of_usable
    {pages : List Page} (h : ∀ page ∈ pages, HasUsableToken page) :
    WellFormed pages := by
  intro page hpage htruncated hnone
  obtain ⟨next, hnext, -⟩ := h page hpage htruncated
  rw [hnone] at hnext
  cases hnext

theorem listKeys_listsOnce_iff
    {pages : List Page} (h : ServesFrom serve none pages) :
    ListsOnce (fun fuel => listKeys serve fuel none) pages (SeesKeys pages) ↔
      (WellFormed pages → ∀ page ∈ pages, HasUsableToken page) := by
  obtain ⟨requests, outcome, hrun, hsub, hgood, hfail⟩ := listKeys_spec h
  constructor
  · rintro ⟨fuel, listing, hlisting, -, hok, -⟩ hwell
    by_contra hnot
    obtain ⟨e, he⟩ := hfail hnot
    rcases listKeys_unique hrun hlisting with rfl
    obtain ⟨all, hall, -⟩ := hok hwell
    have hboth := he.symm.trans hall
    cases hboth
  · intro husable
    refine ⟨pages.length, _, hrun, (nodup_requestsFrom h).sublist hsub.sublist, ?_, ?_⟩
    · exact fun hwell => ⟨_, hgood (husable hwell), seesKeys_flatMap pages⟩
    · exact fun hwell => hfail fun hall => hwell (wellFormed_of_usable hall)

end ListKeys

section LocateTables

variable {serve : Serve} {pre : Str}

/-- Over well-formed pages the loop ends with the last page. -/
theorem locateLoop_wellFormed
    {token : Option Str} {pages : List Page} (h : ServesFrom serve token pages)
    (hwell : WellFormed pages) (tables : Dict Str Str) :
    locateLoop serve pre pages.length token tables =
      some ⟨requestsFrom token pages, .ok (pages.foldl (addPage pre) tables)⟩ := by
  induction pages generalizing token tables with
  | nil => exact h.elim
  | cons page rest ih =>
      cases rest with
      | nil =>
          have hlast : page.isTruncated = false := by
            cases htruncated : page.isTruncated with
            | false => rfl
            | true => exact (hwell page List.mem_cons_self htruncated (h.2 htruncated)).elim
          rw [List.length_cons, locateLoop]
          simp only [h.1, hlast]
          rfl
      | cons second rest =>
          obtain ⟨hserve, htruncated, next, hnext, hrest⟩ := h
          have hrun := ih hrest (fun other hother => hwell other (List.mem_cons_of_mem _ hother))
            (addPage pre tables page)
          rw [List.length_cons, locateLoop]
          simp only [hserve, htruncated, hnext, hrun, requestsFrom]
          rfl

/-- Once a page is truncated without a token the loop starts again, and again. -/
theorem locateLoop_endless
    {all : List Page} (hall : ServesFrom serve none all) (hbad : ¬ WellFormed all)
    {token : Option Str} {pages : List Page} (h : ServesFrom serve token pages)
    (hill : ¬ WellFormed pages) (fuel : Nat) (tables : Dict Str Str) :
    locateLoop serve pre fuel token tables = none := by
  induction fuel generalizing token pages tables with
  | zero => rfl
  | succ fuel ih =>
      cases pages with
      | nil => exact h.elim
      | cons page rest =>
          cases rest with
          | nil =>
              have htruncated : page.isTruncated = true := by
                cases htruncated : page.isTruncated with
                | true => rfl
                | false =>
                    refine (hill fun other hother htrue => ?_).elim
                    rw [List.mem_singleton.mp hother, htruncated] at htrue
                    cases htrue
              rw [locateLoop]
              simp only [h.1, htruncated, h.2 htruncated, ih hall hbad]
              rfl
          | cons second rest =>
              obtain ⟨hserve, htruncated, next, hnext, hrest⟩ := h
              have hrestIll : ¬ WellFormed (second :: rest) := by
                intro hwell
                refine hill (List.forall_mem_cons.mpr ⟨fun _ hnone => ?_, hwell⟩)
                rw [hnext] at hnone
                cases hnone
              rw [locateLoop]
              simp only [hserve, htruncated, hnext, ih hrest hrestIll]
              rfl

theorem foldl_addPage (pages : List Page) (tables : Dict Str Str) :
    pages.foldl (addPage pre) tables =
      (pages.flatMap fun page => page.contents.getD []).foldl (addKey pre) tables := by
  induction pages generalizing tables with
  | nil => rfl
  | cons page pages ih => rw [List.foldl_cons, ih, List.flatMap_cons, List.foldl_append, addPage]

theorem locateTables_listsOnce_iff
    {pages : List Page} (h : ServesFrom serve none pages) (pre : Str) :
    ListsOnce (locateTables serve pre) pages (SeesTables pre pages) ↔ WellFormed pages := by
  constructor
  · rintro ⟨fuel, listing, hlisting, -⟩
    by_contra hbad
    have hnone : locateTables serve pre fuel = none := locateLoop_endless h hbad h hbad fuel _
    rw [hnone] at hlisting
    cases hlisting
  · intro hwell
    refine ⟨pages.length, _, locateLoop_wellFormed h hwell _, nodup_requestsFrom h, ?_, ?_⟩
    · exact fun _ => ⟨tablesOf pre pages, congrArg Except.ok (foldl_addPage pages _),
        seesTables_tablesOf pre pages⟩
    · exact fun hbad => (hbad hwell).elim

end LocateTables

section Listings

/-- `list_keys` lists every page once iff no token of well-formed pages is empty, and
`locateTables` iff no page is truncated without a token. -/
theorem lists_every_page_once_iff
    (serve : Serve)
    (pages : List Page)
    (hserves : ServesFrom serve none pages)
    (pre : Str) :
    (ListsOnce (fun fuel => listKeys serve fuel none) pages (SeesKeys pages) ↔
      (WellFormed pages → ∀ page ∈ pages, HasUsableToken page)) ∧
    (ListsOnce (locateTables serve pre) pages (SeesTables pre pages) ↔
      WellFormed pages) :=
  ⟨listKeys_listsOnce_iff hserves, locateTables_listsOnce_iff hserves pre⟩

/-- Three pages, the second one without contents. -/
def threePages : List Page :=
  [⟨some [some "dump/orders/scheme.pb".toList, none, some "dump/readme".toList], true,
      some "1".toList⟩,
    ⟨none, true, some "2".toList⟩,
    ⟨some [some "dump/old/orders/scheme.pb".toList], false, none⟩]

/-- The store serves them by their tokens. -/
def serveThree : Serve
  | none => .ok (threePages.getD 0 ⟨none, false, none⟩)
  | some token =>
      if token = "1".toList then .ok (threePages.getD 1 ⟨none, false, none⟩)
      else if token = "2".toList then .ok (threePages.getD 2 ⟨none, false, none⟩)
      else .error .clientError

theorem servesFrom_threePages :
    ServesFrom serveThree none threePages :=
  ⟨rfl, rfl, _, rfl, rfl, rfl, _, rfl, rfl, fun h => by cases h⟩

theorem lists_three_pages_once :
    ListsOnce (fun fuel => listKeys serveThree fuel none) threePages (SeesKeys threePages) ∧
      ListsOnce (locateTables serveThree "dump".toList) threePages
        (SeesTables "dump".toList threePages) := by
  have hboth := lists_every_page_once_iff serveThree threePages servesFrom_threePages
    "dump".toList
  refine ⟨hboth.1.mpr fun _ page hpage => ?_, hboth.2.mpr fun page hpage => ?_⟩
  · simp only [threePages, List.mem_cons, List.not_mem_nil, or_false] at hpage
    rcases hpage with rfl | rfl | rfl
    · exact fun _ => ⟨_, rfl, by decide⟩
    · exact fun _ => ⟨_, rfl, by decide⟩
    · exact fun h => by cases h
  · simp only [threePages, List.mem_cons, List.not_mem_nil, or_false] at hpage
    rcases hpage with rfl | rfl | rfl
    · exact fun _ h => by cases h
    · exact fun _ h => by cases h
    · exact fun h => by cases h

/-- One page with one table. -/
def onePage (isTruncated : Bool) : Page :=
  ⟨some [some "dump/orders/scheme.pb".toList], isTruncated, none⟩

theorem servesFrom_onePage (isTruncated : Bool) :
    ServesFrom (fun _ => .ok (onePage isTruncated)) none [onePage isTruncated] :=
  ⟨rfl, fun _ => rfl⟩

/-- After a page that is truncated without a token `locateTables` requests the first page
again and never ends. -/
theorem not_lists_truncated_page :
    ServesFrom (fun _ => .ok (onePage true)) none [onePage true] ∧
    ¬ ListsOnce (locateTables (fun _ => .ok (onePage true)) "dump".toList) [onePage true]
      (SeesTables "dump".toList [onePage true]) := by
  refine ⟨servesFrom_onePage true, ?_⟩
  rw [locateTables_listsOnce_iff (servesFrom_onePage true)]
  intro hwell
  exact hwell (onePage true) List.mem_cons_self rfl rfl

end Listings

end Restore
end YdbSnippets

import YdbSnippets.Dns.Run

/-!
# Runs of the registration, one after the other

What a run does to the cloud, whatever is answered: it changes the records of one
zone, and these are at every moment what the first batches of its plan make of
them.  A run that ends has carried out its whole plan.  Since the plan of the
next run is what is left of the first one, runs that are cut anywhere and
repeated come to the same zone as one run that is not.
-/

namespace YdbSnippets
namespace Dns

open Python Effects Pages Records Matching

section Target

/-- What a run works on: a zone, the prefixes, and the inventory of the servers. -/
structure Target where
  zoneId : Str
  zone : Str
  prefixes : List Str
  inventory : Inventory

/-- The zone that `resolve_zone` finds in the cloud. -/
def zoneIn (py : Interpreter) (args : RunArgs) (s : Cloud) : Option (Str × Str) :=
  if args.zoneId ≠ [] then
    (s.zoneById args.zoneId).bind fun zone => (checkZone py args.zoneId args.zone zone).toOption
  else do
    let want ← (normalizeZone py args.zone).toOption
    let matched ← (matchZones py want [] (s.zones args.dnsFolder)).toOption
    (onlyZone args.dnsFolder want matched).toOption

/-- What a run works on in the cloud, if it gets that far. -/
def targetOf (py : Interpreter) (deleting : Int) (args : RunArgs) (s : Cloud) :
    Option Target := do
  let prefixes ← (checkArgs py args).toOption
  let zone ← zoneIn py args s
  let inventory ← (buildInventory py deleting (s.servers args.folderId args.filter) prefixes
    zone.2).toOption
  return ⟨zone.1, zone.2, prefixes, inventory⟩

/-- The plan for the records of the zone, if they are accepted. -/
def Target.plan (py : Interpreter) (args : RunArgs) (t : Target) (records : List RecordSet) :
    Option (List RecordChange) :=
  (indexARecords py records t.zone).toOption.map fun existing =>
    planChanges py t.inventory.desired existing t.zone t.prefixes args.ttl (args.scope t.inventory)

variable {py : Interpreter} {deleting : Int} {args : RunArgs} {s s' : Cloud} {t : Target}

theorem toOption_eq_some
    {ε α : Type} {x : Except ε α} {a : α} :
    x.toOption = some a ↔ x = .ok a := by
  cases x <;> simp [Except.toOption]

theorem registration_eq_ok
    {α : Type} {r : Except RegistrationError α} {a : α} :
    registration r = .ok a ↔ r = .ok a := by
  cases r <;> simp [registration, Except.mapError]

theorem normal_of_checkZone
    {zoneId zoneName : Str} {shown : DnsZone} {zone : Str × Str}
    (h : checkZone py zoneId zoneName shown = .ok zone) :
    normalizeZone py shown.zone = .ok zone.2 := by
  unfold checkZone at h
  cases hshown : normalizeZone py shown.zone with
  | error e =>
      rw [hshown] at h
      cases h
  | ok normalized =>
      rw [hshown] at h
      dsimp only at h
      split_ifs at h with hname
      · cases h
        rfl
      · cases hwant : normalizeZone py zoneName with
        | error e =>
            rw [hwant] at h
            cases h
        | ok want =>
            rw [hwant] at h
            dsimp only at h
            split_ifs at h
            cases h
            rfl

theorem want_of_onlyZone
    {folderId want : Str} {matched : List DnsZone} {zone : Str × Str}
    (h : onlyZone folderId want matched = .ok zone) :
    zone.2 = want := by
  unfold onlyZone at h
  split at h
  · cases h
  · cases h
    rfl
  · cases h

/-- The zone that was found has a normal name. -/
theorem normal_of_zoneIn
    {zone : Str × Str}
    (h : zoneIn py args s = some zone) :
    ∃ value, normalizeZone py value = .ok zone.2 := by
  unfold zoneIn at h
  split_ifs at h with hid
  · obtain ⟨shown, -, h⟩ := Option.bind_eq_some_iff.mp h
    exact ⟨shown.zone, normal_of_checkZone (toOption_eq_some.mp h)⟩
  · obtain ⟨want, hwant, h⟩ := Option.bind_eq_some_iff.mp h
    obtain ⟨matched, -, h⟩ := Option.bind_eq_some_iff.mp h
    rw [want_of_onlyZone (toOption_eq_some.mp h)]
    exact ⟨args.zone, toOption_eq_some.mp hwant⟩

/-- A run that gets to its target has accepted its arguments, its zone and its servers. -/
theorem targetOf_eq_some
    (h : targetOf py deleting args s = some t) :
    checkArgs py args = .ok t.prefixes ∧ zoneIn py args s = some (t.zoneId, t.zone) ∧
      buildInventory py deleting (s.servers args.folderId args.filter) t.prefixes t.zone =
        .ok t.inventory := by
  obtain ⟨prefixes, hprefixes, h⟩ := Option.bind_eq_some_iff.mp h
  obtain ⟨zone, hzone, h⟩ := Option.bind_eq_some_iff.mp h
  obtain ⟨inventory, hinventory, h⟩ := Option.bind_eq_some_iff.mp h
  cases h
  exact ⟨toOption_eq_some.mp hprefixes, hzone, toOption_eq_some.mp hinventory⟩

theorem checkArgs_prefixes
    {prefixes : List Str}
    (h : checkArgs py args = .ok prefixes) :
    parsePrefixes py args.prefixes = .ok prefixes := by
  unfold checkArgs at h
  split_ifs at h
  exact registration_eq_ok.mp h

theorem setting_of_targetOf
    (h : targetOf py deleting args s = some t) :
    Setting py t.zone t.prefixes t.inventory.desired := by
  obtain ⟨hargs, hzone, hinventory⟩ := targetOf_eq_some h
  obtain ⟨value, hvalue⟩ := normal_of_zoneIn hzone
  exact setting_of_inventory hvalue (checkArgs_prefixes hargs) hinventory

/-- Records of other types are not indexed. -/
theorem indexFrom_onlyA
    (py : Interpreter) (zone : Str) (records : List RecordSet)
    (indexed : Finmap (fun _ : Str => ExistingRecord)) :
    indexFrom py zone (onlyA records) indexed = indexFrom py zone records indexed := by
  induction records generalizing indexed with
  | nil => rfl
  | cons record records ih =>
      by_cases htype : record.type = typeA
      · have hkept : onlyA (record :: records) = record :: onlyA records := by
          simp [onlyA, htype]
        rw [hkept]
        unfold indexFrom
        simp only [htype, ne_eq, not_true, if_false]
        split_ifs
        · rfl
        · exact ih _
      · have hskipped : onlyA (record :: records) = onlyA records := by
          simp [onlyA, htype]
        rw [hskipped, ih indexed]
        conv_rhs => unfold indexFrom
        rw [if_pos htype]

end Target

/-! ## Asking -/

section Asking

variable {py : Interpreter} {deleting : Int} {args : RunArgs} {tokenAt : Nat → Str}
variable {s : Cloud}

/-- A program that changes nothing, and what it returns. -/
abbrev Asks {α : Type} (tokenAt : Nat → Str) (s : Cloud) (Q : α → Prop)
    (p : CloudProgram α) : Prop :=
  Safe (CloudAnswer tokenAt) (fun s' => s' = s) (fun r _ => ∀ a, r = .ok a → Q a) p s

theorem asks_perform
    {op : CloudCall} {Q : cloudApi.Answer op → Prop}
    (h : ∀ r s', CloudAnswer tokenAt s op r s' → s' = s ∧ ∀ a, r = .ok a → Q a) :
    Asks tokenAt s Q (Program.perform (S := cloudApi) op) :=
  Safe.perform rfl h

theorem asks_ofExcept
    {α : Type} {Q : α → Prop} {r : Except RunError α}
    (h : ∀ a, r = .ok a → Q a) :
    Asks tokenAt s Q (Program.ofExcept r) := by
  cases r with
  | ok a => exact ⟨rfl, fun b hb => h b hb⟩
  | error e => exact ⟨rfl, fun b hb => by cases hb⟩

theorem asks_bind
    {α β : Type} {Q : α → Prop} {R : β → Prop} {p : CloudProgram α} {f : α → CloudProgram β}
    (hp : Asks tokenAt s Q p) (hf : ∀ a, Q a → Asks tokenAt s R (f a)) :
    Asks tokenAt s R (p.bind f) := by
  refine Safe.bind (hp.weaken ?_)
  rintro r s' rfl hr
  cases r with
  | ok a => exact hf a (hr a rfl)
  | error e =>
      intro b hb
      cases hb

theorem asks_endless
    {α : Type} {Q : α → Prop} :
    Asks tokenAt s Q (endless : CloudProgram α) := by
  refine asks_bind (Q := fun _ => True) (asks_perform ?_) fun never => nomatch (never : Empty)
  intro r s' henv
  cases henv
  exact ⟨rfl, fun _ _ => trivial⟩

/-- A listing in pages gets what adding all items gives. -/
theorem asks_pages
    {α β : Type} (items : List α) {page : Str → CloudProgram (List α × Str)}
    {add : β → List α → Except RunError β}
    (hadd : Additive add) (hfirst : tokenAt 0 = [])
    (hpage : ∀ k, Asks tokenAt s (fun answer => PageAt tokenAt items k answer.1 answer.2)
      (page (tokenAt k)))
    (pages : Nat) (acc : β) :
    Asks tokenAt s (fun b => add acc items = .ok b)
      (readPages page add [] endless pages [] acc) := by
  have hread : Safe (CloudAnswer tokenAt) (fun s' => s' = s)
      (fun r _ => ReadsAll add acc (items.drop 0) r)
      (readPages page add (tokenAt 0) endless pages (tokenAt 0) acc) s := by
    refine safe_readPages items (fun k s' hs => hs ▸ hpage k) (fun s' hs => ?_) pages 0 acc rfl
    subst hs
    exact (asks_endless (Q := fun _ => False)).weaken fun r s' _ hr b hb => hr b hb
  rw [hfirst, List.drop_zero] at hread
  refine hread.weaken ?_
  rintro r s' _ hr b rfl
  exact hadd.eq_of_readsAll hr

theorem asks_listServers
    (hinj : Function.Injective tokenAt) (hfirst : tokenAt 0 = [])
    (pages : Nat) (folderId filter : Str) :
    Asks tokenAt s (fun servers => servers = s.servers folderId filter)
      (listServers pages folderId filter) := by
  refine (asks_pages (s.servers folderId filter) additive_append hfirst
    (fun k => asks_perform ?_) pages []).weaken ?_
  · intro r s' henv
    cases henv with
    | servers _ _ _ _ k' answer htoken hpage =>
        cases hinj htoken
        exact ⟨rfl, fun a ha => by cases ha; exact hpage⟩
    | failed _ _ e => exact ⟨rfl, fun a ha => by cases ha⟩
  · intro r s' _ hr servers heq
    exact (Except.ok.inj (hr servers heq)).symm

theorem asks_listARecords
    (hinj : Function.Injective tokenAt) (hfirst : tokenAt 0 = [])
    (pages : Nat) (zoneId : Str) :
    Asks tokenAt s (fun records => records = onlyA (s.records zoneId))
      (listARecords pages zoneId) := by
  refine (asks_pages (onlyA (s.records zoneId)) additive_append hfirst
    (fun k => asks_perform ?_) pages []).weaken ?_
  · intro r s' henv
    cases henv with
    | records _ _ _ k' answer htoken hpage =>
        cases hinj htoken
        exact ⟨rfl, fun a ha => by cases ha; exact hpage⟩
    | failed _ _ e => exact ⟨rfl, fun a ha => by cases ha⟩
  · intro r s' _ hr records heq
    exact (Except.ok.inj (hr records heq)).symm

theorem additive_matchZones (py : Interpreter) (want : Str) :
    Additive (matchZones py want) := by
  refine ⟨fun acc => rfl, fun acc xs ys => ?_⟩
  induction xs generalizing acc with
  | nil => rfl
  | cons zone zones ih =>
      rw [List.cons_append, matchZones, matchZones]
      cases normalizeZone py zone.zone with
      | error e => rfl
      | ok normalized => exact ih _

/-- `resolve_zone` finds the zone of the cloud. -/
theorem asks_resolveZone
    (py : Interpreter) (args : RunArgs)
    (hinj : Function.Injective tokenAt) (hfirst : tokenAt 0 = []) (pages : Nat) :
    Asks tokenAt s (fun zone => zoneIn py args s = some zone)
      (resolveZone py pages args.zoneId args.zone args.dnsFolder) := by
  unfold resolveZone zoneIn
  split_ifs with hid
  · refine asks_bind (Q := fun zone => s.zoneById args.zoneId = some zone) (asks_perform ?_) ?_
    · intro r s' henv
      cases henv with
      | zone _ _ zone hzone => exact ⟨rfl, fun a ha => by cases ha; exact hzone⟩
      | failed _ _ e => exact ⟨rfl, fun a ha => by cases ha⟩
    · intro zone hzone
      refine asks_ofExcept fun found hfound => ?_
      rw [hzone]
      exact toOption_eq_some.mpr hfound
  · refine asks_bind (asks_ofExcept fun want hwant => registration_eq_ok.mp hwant) ?_
    intro want hwant
    refine asks_bind (asks_pages (s.zones args.dnsFolder) (additive_matchZones py want) hfirst
      (fun k => asks_perform ?_) pages []) ?_
    · intro r s' henv
      cases henv with
      | zones _ _ _ k' answer htoken hpage =>
          cases hinj htoken
          exact ⟨rfl, fun a ha => by cases ha; exact hpage⟩
      | failed _ _ e => exact ⟨rfl, fun a ha => by cases ha⟩
    · intro matched hmatched
      refine asks_ofExcept fun found hfound => ?_
      simp only [toOption_eq_some.mpr hwant, toOption_eq_some.mpr hmatched,
        toOption_eq_some.mpr hfound, Option.bind_eq_bind, Option.bind_some]

end Asking

/-! ## Updating -/

section Updating

variable {py : Interpreter} {deleting : Int} {args : RunArgs} {tokenAt : Nat → Str}
variable {s s' : Cloud}

/-- The cloud `s` after the updates for some batches of the zone. -/
structure After (s : Cloud) (zoneId : Str) (done : List (List RecordChange)) (s' : Cloud) :
    Prop where
  servers : s'.servers = s.servers
  zones : s'.zones = s.zones
  zoneById : s'.zoneById = s.zoneById
  records : s'.records =
    Function.update s.records zoneId (zoneAfter (s.records zoneId) done)

/-- The cloud `s` after some of the batches from the first one on. -/
def Within (s : Cloud) (zoneId : Str) (batches : List (List RecordChange)) (s' : Cloud) : Prop :=
  ∃ k, After s zoneId (batches.take k) s'

theorem After.refl (s : Cloud) (zoneId : Str) :
    After s zoneId [] s :=
  ⟨rfl, rfl, rfl, (Function.update_eq_self zoneId s.records).symm⟩

theorem After.update
    {zoneId : Str} {done : List (List RecordChange)}
    (h : After s zoneId done s') (batch : List RecordChange) :
    After s zoneId (done ++ [batch])
      (s'.update zoneId (recordSetsForBatch batch).1 (recordSetsForBatch batch).2) := by
  refine ⟨h.servers, h.zones, h.zoneById, ?_⟩
  unfold Cloud.update
  rw [h.records, Function.update_self, Function.update_idem, zoneAfter_append]
  rfl

theorem After.within
    {zoneId : Str} {batches done rest : List (List RecordChange)}
    (hsplit : done ++ rest = batches) (h : After s zoneId done s') :
    Within s zoneId batches s' := by
  subst hsplit
  refine ⟨done.length, ?_⟩
  rwa [List.take_left]

/-- Whatever becomes of the updates, some of the batches were carried out, and all of
them if the loop comes to its end. -/
theorem safe_applyEach_embed
    {zoneId : Str} (batches done rest : List (List RecordChange))
    (hsplit : done ++ rest = batches) (h : After s zoneId done s') :
    Safe (CloudAnswer tokenAt) (Within s zoneId batches)
      (fun r s' => ∀ u, r = .ok u → After s zoneId batches s')
      ((applyEach rest).embed (zoneRequest zoneId) .registration) s' := by
  induction rest generalizing done s' with
  | nil =>
      refine ⟨h.within hsplit, ?_⟩
      rintro u -
      rw [List.append_nil] at hsplit
      rwa [← hsplit]
  | cons batch rest ih =>
      have hnext : (done ++ [batch]) ++ rest = batches := by
        rw [List.append_assoc]
        exact hsplit
      refine ⟨h.within hsplit, ?_⟩
      intro r s'' henv
      cases henv with
      | updated _ _ deletions additions =>
          have hafter := h.update batch
          refine ⟨hafter.within hnext, ?_⟩
          intro r s'' henv
          cases henv with
          | waited _ hcarried => exact ih (done ++ [batch]) hnext hafter
          | failed _ _ e => exact ⟨hafter.within hnext, fun u hu => by cases hu⟩
      | rejected _ _ deletions additions =>
          have hsame : After s zoneId done { s' with carriedOut := false } :=
            ⟨h.servers, h.zones, h.zoneById, h.records⟩
          refine ⟨hsame.within hsplit, ?_⟩
          intro r s'' henv
          cases henv with
          | waited _ hcarried => cases hcarried
          | failed _ _ e => exact ⟨hsame.within hsplit, fun u hu => by cases hu⟩
      | updateLost _ _ deletions additions e =>
          exact ⟨(h.update batch).within hnext, fun u hu => by cases hu⟩
      | failed _ _ e => exact ⟨h.within hsplit, fun u hu => by cases hu⟩

/-- What the cloud `s` is like in a run: as it was, or after some batches of the plan. -/
def Ahead (py : Interpreter) (deleting : Int) (args : RunArgs) (s s' : Cloud) : Prop :=
  s' = s ∨ args.dryRun = false ∧ ∃ t plan, targetOf py deleting args s = some t ∧
    t.plan py args (s.records t.zoneId) = some plan ∧
      Within s t.zoneId (slices updateBatch plan) s'

/-- What the cloud `s` is like after a run that returned a plan. -/
def Ended (py : Interpreter) (deleting : Int) (args : RunArgs) (s : Cloud)
    (r : Except RunError (List RecordChange)) (s' : Cloud) : Prop :=
  ∀ plan, r = .ok plan → ∃ t, targetOf py deleting args s = some t ∧
    t.plan py args (s.records t.zoneId) = some plan ∧
      (args.dryRun = true → s' = s) ∧
      (args.dryRun = false → After s t.zoneId (slices updateBatch plan) s')

theorem safe_asks
    {α : Type} {Q : α → Prop} {p : CloudProgram α}
    {f : α → CloudProgram (List RecordChange)}
    (hp : Asks tokenAt s Q p)
    (hf : ∀ a, Q a → Safe (CloudAnswer tokenAt) (Ahead py deleting args s)
      (Ended py deleting args s) (f a) s) :
    Safe (CloudAnswer tokenAt) (Ahead py deleting args s) (Ended py deleting args s)
      (p.bind f) s := by
  refine Safe.bind (hp.mono (fun s' hs => Or.inl hs) ?_)
  rintro r s' rfl hr
  cases r with
  | ok a => exact hf a (hr a rfl)
  | error e =>
      intro plan hplan
      cases hplan

theorem safe_run
    (py : Interpreter) (deleting : Int) (args : RunArgs) (pages : Nat) (s : Cloud)
    (hinj : Function.Injective tokenAt) (hfirst : tokenAt 0 = []) :
    Safe (CloudAnswer tokenAt) (Ahead py deleting args s) (Ended py deleting args s)
      (run py deleting pages args) s := by
  refine safe_asks (asks_ofExcept fun prefixes hprefixes => hprefixes) ?_
  intro prefixes hprefixes
  refine safe_asks (asks_listServers hinj hfirst pages _ _) ?_
  rintro servers rfl
  refine safe_asks (asks_resolveZone py args hinj hfirst pages) ?_
  rintro ⟨zoneId, zone⟩ hzone
  refine safe_asks (asks_ofExcept fun inventory hinventory => registration_eq_ok.mp hinventory) ?_
  intro inventory hinventory
  refine safe_asks (asks_listARecords hinj hfirst pages zoneId) ?_
  rintro records rfl
  refine safe_asks (asks_ofExcept fun existing hexisting => registration_eq_ok.mp hexisting) ?_
  intro existing hexisting
  have htarget : targetOf py deleting args s = some ⟨zoneId, zone, prefixes, inventory⟩ := by
    unfold targetOf
    simp only [toOption_eq_some.mpr hprefixes, hzone, toOption_eq_some.mpr hinventory,
      Option.bind_eq_bind, Option.bind_some]
    rfl
  have hplan : Target.plan py args ⟨zoneId, zone, prefixes, inventory⟩ (s.records zoneId) =
      some (planChanges py inventory.desired existing zone prefixes args.ttl
        (args.scope inventory)) := by
    unfold Target.plan
    rw [indexARecords, indexFrom_onlyA] at hexisting
    rw [indexARecords, toOption_eq_some.mpr hexisting]
    rfl
  generalize planChanges py inventory.desired existing zone prefixes args.ttl
    (args.scope inventory) = plan at hplan ⊢
  change Safe _ _ _ (if plan = [] then Program.pure []
    else if args.dryRun = true then Program.pure plan
    else (updateZoneBy zoneId plan).bind fun _ => Program.pure plan) s
  split_ifs with hempty hdry
  · subst hempty
    refine ⟨Or.inl rfl, ?_⟩
    rintro plan' hplan'
    cases hplan'
    refine ⟨_, htarget, hplan, fun _ => rfl, fun _ => ?_⟩
    rw [slices_nil (by decide)]
    exact After.refl s zoneId
  · refine ⟨Or.inl rfl, ?_⟩
    rintro plan' hplan'
    cases hplan'
    exact ⟨_, htarget, hplan, fun _ => rfl, fun hno => by rw [hno] at hdry; cases hdry⟩
  · rw [Bool.not_eq_true] at hdry
    rw [updateZoneBy, applyChanges_eq]
    refine Safe.bind ((safe_applyEach_embed (slices updateBatch plan) [] _ rfl
      (After.refl s zoneId)).mono ?_ ?_)
    · exact fun s' hs => Or.inr ⟨hdry, _, plan, htarget, hplan, hs⟩
    · intro r s' hs hr
      cases r with
      | ok u =>
          refine ⟨Or.inr ⟨hdry, _, plan, htarget, hplan, hs⟩, ?_⟩
          intro plan' hplan'
          cases hplan'
          refine ⟨⟨zoneId, zone, prefixes, inventory⟩, htarget, hplan, ?_, fun _ => hr u rfl⟩
          intro hyes
          rw [hdry] at hyes
          cases hyes
      | error e =>
          intro plan' hplan'
          cases hplan'

/-- What a run that returned a plan has done. -/
theorem ended_of_completes
    {pages : Nat} {plan : List RecordChange}
    (hinj : Function.Injective tokenAt) (hfirst : tokenAt 0 = [])
    (hrun : Completes (CloudAnswer tokenAt) s (run py deleting pages args) (.ok plan) s') :
    ∃ t, targetOf py deleting args s = some t ∧
      t.plan py args (s.records t.zoneId) = some plan ∧
        (args.dryRun = true → s' = s) ∧
        (args.dryRun = false → After s t.zoneId (slices updateBatch plan) s') :=
  Safe.post hrun (safe_run py deleting args pages s hinj hfirst) plan rfl

end Updating

/-! ## Planning again -/

section Again

variable {py : Interpreter} {deleting : Int} {args : RunArgs} {s s' : Cloud} {t : Target}
variable {plan : List RecordChange}

/-- The target of a run depends on the servers and the zones only. -/
theorem targetOf_after
    {zoneId : Str} {done : List (List RecordChange)}
    (h : After s zoneId done s') :
    targetOf py deleting args s' = targetOf py deleting args s := by
  unfold targetOf zoneIn
  rw [h.servers, h.zones, h.zoneById]

theorem plan_eq_some
    {records : List RecordSet}
    (h : t.plan py args records = some plan) :
    ∃ existing, Listed py t.zone records existing ∧
      planChanges py t.inventory.desired existing t.zone t.prefixes args.ttl
        (args.scope t.inventory) = plan := by
  obtain ⟨existing, hexisting, hplan⟩ := Option.map_eq_some_iff.mp h
  exact ⟨existing, listed_of_indexARecords (toOption_eq_some.mp hexisting), hplan⟩

/-- After some of the batches the plan is the rest of them. -/
theorem plan_after
    {records : List RecordSet}
    (htarget : targetOf py deleting args s = some t)
    (h : t.plan py args records = some plan) (k : Nat) :
    t.plan py args (zoneAfter records ((slices updateBatch plan).take k)) =
      some ((slices updateBatch plan).drop k).flatten := by
  obtain ⟨existing, hlisted, hplan⟩ := plan_eq_some h
  obtain ⟨existing', hexisting', hplan'⟩ :=
    (resumable_of_listed (setting_of_targetOf htarget) hlisted hplan k).replanned
  unfold Target.plan
  rw [toOption_eq_some.mpr hexisting', Option.map_some, hplan']

/-- The batches make of the zone what the whole plan makes of it at once. -/
theorem zoneAfter_slices
    {records : List RecordSet}
    (htarget : targetOf py deleting args s = some t)
    (h : t.plan py args records = some plan) :
    zoneAfter records (slices updateBatch plan) = zoneAfter records [plan] := by
  obtain ⟨existing, hlisted, hplan⟩ := plan_eq_some h
  have happ : Applicable (recordKey py t.zone) records ((planChanges py t.inventory.desired
      existing t.zone t.prefixes args.ttl (args.scope t.inventory)).map RecordChange.toEdit) :=
    plan_applicable (setting_of_targetOf htarget) hlisted
  rw [hplan] at happ
  have hslices : (slices updateBatch plan).flatten = plan := slices_flatten (by decide) plan
  have hwhole : (toEdits [plan]).flatten = plan.map RecordChange.toEdit := by
    rw [toEdits_flatten, List.flatten_singleton]
  have hparts : (toEdits (slices updateBatch plan)).flatten = plan.map RecordChange.toEdit := by
    rw [toEdits_flatten, hslices]
  rw [zoneAfter_eq_applyBatches, zoneAfter_eq_applyBatches, Applicable.applyBatches_eq,
    Applicable.applyBatches_eq, hwhole, hparts]
  · rwa [hwhole]
  · rwa [hparts]

end Again

/-! ## The runs -/

section Runs

variable {py : Interpreter} {deleting : Int} {args : RunArgs} {tokenAt : Nat → Str}
variable {s s' : Cloud} {t : Target} {plan : List RecordChange}

/-- The zone after a whole run is reconciled. -/
theorem reconciled_of_plan
    (htarget : targetOf py deleting args s = some t)
    (hplan : t.plan py args (s.records t.zoneId) = some plan)
    (hafter : After s t.zoneId (slices updateBatch plan) s') :
    Reconciled py t.zone t.prefixes t.inventory.desired args.ttl (args.scope t.inventory)
      (s.records t.zoneId) (recordSetsForBatch plan).1 (recordSetsForBatch plan).2
      (s'.records t.zoneId) := by
  obtain ⟨existing, hlisted, hexisting⟩ := plan_eq_some hplan
  rw [hafter.records, Function.update_self, zoneAfter_slices htarget hplan]
  exact reconciled_of_listed (setting_of_targetOf htarget) hlisted hexisting

/-- The cloud `s` after runs that may have been cut: as it was, or after some batches of
the plan of the first one. -/
def Trail (py : Interpreter) (deleting : Int) (args : RunArgs) (s s' : Cloud) : Prop :=
  s' = s ∨ ∃ t plan, targetOf py deleting args s = some t ∧
    t.plan py args (s.records t.zoneId) = some plan ∧
      Within s t.zoneId (slices updateBatch plan) s'

theorem After.trans
    {s'' : Cloud} {zoneId : Str} {done rest : List (List RecordChange)}
    (h : After s zoneId done s') (h' : After s' zoneId rest s'') :
    After s zoneId (done ++ rest) s'' := by
  refine ⟨h'.servers.trans h.servers, h'.zones.trans h.zones, h'.zoneById.trans h.zoneById, ?_⟩
  rw [h'.records, h.records, Function.update_self, Function.update_idem, zoneAfter_append]

/-- What the next run plans after some batches, and what becomes of the zone then. -/
theorem plan_of_within
    (s'' : Cloud) {t' : Target} {plan' : List RecordChange}
    (htarget : targetOf py deleting args s = some t)
    (hplan : t.plan py args (s.records t.zoneId) = some plan)
    {k : Nat} (hafter : After s t.zoneId ((slices updateBatch plan).take k) s')
    (htarget' : targetOf py deleting args s' = some t')
    (hplan' : t'.plan py args (s'.records t'.zoneId) = some plan') :
    t' = t ∧ plan' = ((slices updateBatch plan).drop k).flatten ∧
      ∀ k', After s' t'.zoneId ((slices updateBatch plan').take k') s'' →
        After s t.zoneId ((slices updateBatch plan).take (k + k')) s'' := by
  rw [targetOf_after hafter, htarget] at htarget'
  cases htarget'
  rw [hafter.records, Function.update_self, plan_after htarget hplan k] at hplan'
  cases hplan'
  refine ⟨rfl, rfl, fun k' hafter' => ?_⟩
  rw [slices_drop (by decide)] at hafter'
  rw [List.take_add]
  exact hafter.trans hafter'

/-- A run goes on where the runs before it stopped. -/
theorem Trail.ahead
    {s'' : Cloud} {dryRun : Bool}
    (h : Trail py deleting args s s')
    (hahead : Ahead py deleting { args with dryRun := dryRun } s' s'') :
    Trail py deleting args s s'' := by
  rcases hahead with rfl | ⟨-, t', plan', htarget', hplan', k', hafter'⟩
  · exact h
  · rcases h with rfl | ⟨t, plan, htarget, hplan, k, hafter⟩
    · exact Or.inr ⟨t', plan', htarget', hplan', k', hafter'⟩
    · obtain ⟨-, -, hall⟩ := plan_of_within s'' htarget hplan hafter htarget' hplan'
      exact Or.inr ⟨t, plan, htarget, hplan, k + k', hall k' hafter'⟩

/-- A run with the arguments, to be carried out or dry. -/
def IsRun (py : Interpreter) (deleting : Int) (args : RunArgs)
    (p : CloudProgram (List RecordChange)) : Prop :=
  ∃ pages dryRun, p = run py deleting pages { args with dryRun := dryRun }

/-- Every state of runs that are cut and repeated lies on the way of the first plan. -/
theorem trail_of_restarts
    {start p : CloudProgram (List RecordChange)}
    (hinj : Function.Injective tokenAt) (hfirst : tokenAt 0 = [])
    (hstart : IsRun py deleting args start)
    (hreach : Restarts (CloudAnswer tokenAt) (IsRun py deleting args) (s, start) (s', p)) :
    Trail py deleting args s s' := by
  have hsafe : ∀ q, IsRun py deleting args q → ∀ s', Trail py deleting args s s' →
      Safe (CloudAnswer tokenAt) (Trail py deleting args s) (fun _ _ => True) q s' := by
    rintro q ⟨pages, dryRun, rfl⟩ s' htrail
    refine (safe_run py deleting _ pages s' hinj hfirst).mono ?_ fun _ _ _ _ => trivial
    exact fun s'' hahead => htrail.ahead hahead
  exact (Restarts.safe hsafe hreach (hsafe start hstart s (Or.inl rfl))).inv

/-- A run that ends well goes the rest of the way. -/
theorem Trail.completed
    {s'' : Cloud} {pages : Nat} {plan : List RecordChange}
    (hinj : Function.Injective tokenAt) (hfirst : tokenAt 0 = [])
    (h : Trail py deleting args s s') (hdry : args.dryRun = false)
    (hrun : Completes (CloudAnswer tokenAt) s' (run py deleting pages args) (.ok plan) s'') :
    ∃ t whole k, targetOf py deleting args s = some t ∧
      t.plan py args (s.records t.zoneId) = some whole ∧
      After s t.zoneId ((slices updateBatch whole).take k) s' ∧
      plan = ((slices updateBatch whole).drop k).flatten ∧
      After s t.zoneId (slices updateBatch whole) s'' := by
  obtain ⟨t', htarget', hplan', -, hended⟩ := ended_of_completes hinj hfirst hrun
  have hafter' := hended hdry
  rcases h with rfl | ⟨t, whole, htarget, hwhole, k, hafter⟩
  · refine ⟨t', plan, 0, htarget', hplan', After.refl s' t'.zoneId, ?_, hafter'⟩
    rw [List.drop_zero, slices_flatten (by decide)]
  · obtain ⟨rfl, hrest, hall⟩ := plan_of_within s'' htarget hwhole hafter htarget' hplan'
    refine ⟨t', whole, k, htarget, hwhole, hafter, hrest, ?_⟩
    have hlast := hall ((slices updateBatch plan).length + (slices updateBatch whole).length) (by
      rwa [List.take_of_length_le (Nat.le_add_right _ _)])
    rwa [List.take_of_length_le (by omega)] at hlast

end Runs

/-! ## A cloud that answers -/

section OldZone

variable {py : Interpreter} {deleting : Int} {args : RunArgs} {s : Cloud} {t : Target}
variable {plan : List RecordChange}

/-- The tokens of the pages. -/
def pageToken (k : Nat) : Str :=
  List.replicate k 'n'

theorem pageToken_injective : Function.Injective pageToken := by
  intro k k' h
  have hlength := congrArg List.length h
  simpa [pageToken] using hlength

/-- A cloud that answers with one page, and carries every update out.  Of an update the
run hears `reply`. -/
def wholePages (reply : Except RunError Unit) : Handler cloudApi RunError Cloud
  | s, .listServers folderId filter [] => (.ok (s.servers folderId filter, []), s)
  | s, .listZones folderId [] => (.ok (s.zones folderId, []), s)
  | s, .listARecords zoneId [] => (.ok (onlyA (s.records zoneId), []), s)
  | s, .getZone zoneId =>
      ((s.zoneById zoneId).elim (.error (.registration (.rpc []))) .ok, s)
  | s, .updateRecordSets zoneId deletions additions =>
      (reply, s.update zoneId deletions additions)
  | s, .waitOperation =>
      (if s.carriedOut then .ok () else .error (.registration (.operation [])), s)
  | s, .listServers _ _ (_ :: _) | s, .listZones _ (_ :: _) | s, .listARecords _ (_ :: _)
  | s, .forever => (.error (.registration (.rpc [])), s)

theorem wholePages_answers (reply : Except RunError Unit) (s : Cloud) (op : CloudCall) :
    CloudAnswer pageToken s op (wholePages reply s op).1 (wholePages reply s op).2 := by
  cases op with
  | listServers folderId filter token =>
      cases token with
      | nil => exact .servers s folderId filter [] 0 _ rfl .last
      | cons c token => exact .failed s _ _
  | getZone zoneId =>
      change CloudAnswer pageToken s (.getZone zoneId) ((s.zoneById zoneId).elim _ _) s
      cases hzone : s.zoneById zoneId with
      | none => exact .failed s _ _
      | some zone => exact .zone s zoneId zone hzone
  | listZones folderId token =>
      cases token with
      | nil => exact .zones s folderId [] 0 _ rfl .last
      | cons c token => exact .failed s _ _
  | listARecords zoneId token =>
      cases token with
      | nil => exact .records s zoneId [] 0 _ rfl .last
      | cons c token => exact .failed s _ _
  | updateRecordSets zoneId deletions additions =>
      cases reply with
      | ok u => exact .updated s zoneId deletions additions
      | error e => exact .updateLost s zoneId deletions additions e
  | waitOperation =>
      change CloudAnswer pageToken s .waitOperation (if s.carriedOut = true then _ else _) s
      split_ifs with hcarried
      · exact .waited s hcarried
      · exact .failed s _ _
  | forever => exact .failed s _ _

theorem run_applyEach_embed
    (zoneId : Str) (batches : List (List RecordChange)) (s : Cloud) :
    (((applyEach batches).embed (zoneRequest zoneId) .registration).run
      (wholePages (.ok ())) s).1 = .ok () := by
  induction batches generalizing s with
  | nil => rfl
  | cons batch batches ih => exact ih _

section Answered

variable {reply : Except RunError Unit}

/-- One page is the whole listing. -/
theorem run_pages
    {α β : Type} {page : Str → CloudProgram (List α × Str)}
    {add : β → List α → Except RunError β} {items : List α} {acc b : β} (pages : Nat)
    (hpage : (page []).run (wholePages reply) s = (.ok (items, []), s))
    (hadd : add acc items = .ok b) :
    (readPages page add [] endless (pages + 1) [] acc).run (wholePages reply) s = (.ok b, s) := by
  rw [readPages, Program.run_bind_ok hpage]
  dsimp only
  rw [hadd]
  rfl

theorem run_resolveZone
    {zone : Str × Str} (pages : Nat)
    (h : zoneIn py args s = some zone) :
    (resolveZone py (pages + 1) args.zoneId args.zone args.dnsFolder).run (wholePages reply) s =
      (.ok zone, s) := by
  unfold resolveZone
  unfold zoneIn at h
  split_ifs at h ⊢ with hid
  · obtain ⟨shown, hshown, hcheck⟩ := Option.bind_eq_some_iff.mp h
    have hget : (@Program.perform cloudApi _ (.getZone args.zoneId) : CloudProgram DnsZone).run
        (wholePages reply) s = (.ok shown, s) := by
      refine (Program.run_perform _ s).trans ?_
      change ((s.zoneById args.zoneId).elim _ _, s) = _
      rw [hshown]
      rfl
    refine (Program.run_bind_ok hget).trans ?_
    rw [toOption_eq_some.mp hcheck]
    rfl
  · obtain ⟨want, hwant, h⟩ := Option.bind_eq_some_iff.mp h
    obtain ⟨matched, hmatched, h⟩ := Option.bind_eq_some_iff.mp h
    rw [registration_eq_ok.mpr (toOption_eq_some.mp hwant)]
    refine (Program.run_bind_ok (run_pages pages rfl (toOption_eq_some.mp hmatched))).trans ?_
    rw [toOption_eq_some.mp h]
    rfl

/-- Where the cloud answers and its servers, zones and records are accepted, the run comes
to its plan. -/
theorem run_planned
    (pages : Nat)
    (htarget : targetOf py deleting args s = some t)
    (hplan : t.plan py args (s.records t.zoneId) = some plan) :
    (run py deleting (pages + 1) args).run (wholePages reply) s =
      (if plan = [] then Program.pure [] else if args.dryRun = true then Program.pure plan
        else (updateZoneBy t.zoneId plan).bind fun _ => Program.pure plan).run
          (wholePages reply) s := by
  obtain ⟨hargs, hzone, hinventory⟩ := targetOf_eq_some htarget
  obtain ⟨existing, hexisting, rfl⟩ := Option.map_eq_some_iff.mp hplan
  rw [indexARecords, ← indexFrom_onlyA] at hexisting
  have hchecked : (Program.ofExcept (checkArgs py args) : CloudProgram _).run
      (wholePages reply) s = (.ok t.prefixes, s) := by
    rw [hargs]
    rfl
  have hbuilt : (Program.ofExcept (registration (buildInventory py deleting
      (s.servers args.folderId args.filter) t.prefixes t.zone)) : CloudProgram _).run
      (wholePages reply) s = (.ok t.inventory, s) := by
    rw [hinventory]
    rfl
  have hindexed : (Program.ofExcept (registration (indexARecords py (onlyA (s.records t.zoneId))
      t.zone)) : CloudProgram _).run (wholePages reply) s = (.ok existing, s) := by
    rw [indexARecords, toOption_eq_some.mp hexisting]
    rfl
  refine (Program.run_bind_ok hchecked).trans ?_
  refine (Program.run_bind_ok (run_pages pages rfl rfl)).trans ?_
  refine (Program.run_bind_ok (run_resolveZone pages hzone)).trans ?_
  refine (Program.run_bind_ok hbuilt).trans ?_
  refine (Program.run_bind_ok (run_pages pages rfl rfl)).trans ?_
  exact Program.run_bind_ok hindexed

end Answered

/-- Where every update is answered, the run comes to its end. -/
theorem run_wholePages
    (pages : Nat)
    (htarget : targetOf py deleting args s = some t)
    (hplan : t.plan py args (s.records t.zoneId) = some plan) :
    ((run py deleting (pages + 1) args).run (wholePages (.ok ())) s).1 = .ok plan := by
  rw [run_planned pages htarget hplan]
  split_ifs with hempty hdry
  · rw [hempty]
    rfl
  · rfl
  · have hupdated : ((updateZoneBy t.zoneId plan).run (wholePages (.ok ())) s).1 = .ok () := by
      rw [updateZoneBy, applyChanges_eq]
      exact run_applyEach_embed t.zoneId (slices updateBatch plan) s
    rw [Program.run_bind_ok (Prod.ext hupdated rfl)]
    rfl

/-- Where the answer to an update is lost, the run stops behind the first batch. -/
theorem run_lostUpdate
    {e : RunError} (pages : Nat)
    (htarget : targetOf py deleting args s = some t)
    (hplan : t.plan py args (s.records t.zoneId) = some plan)
    (hdry : args.dryRun = false) (hne : plan ≠ []) :
    (run py deleting (pages + 1) args).run (wholePages (.error e)) s =
      (.error e, s.update t.zoneId (recordSetsForBatch (plan.take updateBatch)).1
        (recordSetsForBatch (plan.take updateBatch)).2) := by
  rw [run_planned pages htarget hplan, if_neg hne, hdry, if_neg Bool.false_ne_true, updateZoneBy,
    applyChanges_eq, slices_cons (by decide) hne]
  rfl

/-- The cloud of one server and the outdated zone. -/
def oldCloud : Cloud where
  servers := fun _ _ => [oneServer]
  zones := fun _ => [⟨"z1".toList, "Zonne".toList⟩]
  zoneById := fun _ => none
  records := fun zoneId => if zoneId = "z1".toList then oldZone else []
  carriedOut := true

def zoneArgs : RunArgs where
  folderId := "f1".toList
  dnsFolderId := []
  zoneId := []
  zone := "zonne".toList
  prefixes := ["one".toList]
  ttl := 300
  filter := []
  dryRun := false
  noPrune := false

/-- The target of the runs there, and what is to be done. -/
theorem exists_oldTarget :
    ∃ t plan, t.zoneId = "z1".toList ∧ targetOf asciiInterpreter 9 zoneArgs oldCloud = some t ∧
      t.plan asciiInterpreter zoneArgs (oldCloud.records t.zoneId) = some plan ∧ plan ≠ [] := by
  have hid : (targetOf asciiInterpreter 9 zoneArgs oldCloud).map Target.zoneId =
      some "z1".toList := by
    decide +kernel
  have hzone : (targetOf asciiInterpreter 9 zoneArgs oldCloud).map Target.zone =
      some "zonne.".toList := by
    decide +kernel
  have hprefixes : (targetOf asciiInterpreter 9 zoneArgs oldCloud).map Target.prefixes =
      some ["one".toList] := by
    decide +kernel
  obtain ⟨t, htarget, hid⟩ := Option.map_eq_some_iff.mp hid
  rw [htarget, Option.map_some, Option.some.injEq] at hzone hprefixes
  obtain ⟨existing, hexisting⟩ := exists_of_isOk
    (show (indexARecords asciiInterpreter oldZone "zonne.".toList).isOk = true by
      decide +kernel)
  obtain ⟨-, -, hinventory⟩ := targetOf_eq_some htarget
  rw [hzone, hprefixes] at hinventory
  refine ⟨t, _, hid, htarget, Option.map_eq_some_iff.mpr ⟨existing, ?_, rfl⟩, ?_⟩
  · rw [hid, hzone]
    exact toOption_eq_some.mpr hexisting
  · rw [hzone, hprefixes]
    exact oldZone_planned hinventory hexisting

/-- Where the records of the zone are accepted, a run comes to its end. -/
theorem completes_wholePages
    (htarget : targetOf py deleting args s = some t)
    (hplan : t.plan py args (s.records t.zoneId) = some plan) :
    Completes (CloudAnswer pageToken) s (run py deleting 1 args) (.ok plan)
      ((run py deleting 1 args).run (wholePages (.ok ())) s).2 := by
  have hrun := Program.run_completes (wholePages_answers (.ok ())) (run py deleting 1 args) s
  rwa [run_wholePages 0 htarget hplan] at hrun

end OldZone

/-! ## The main results -/

/-- A run that ends well has made the zone what the servers ask for, and has left all other
zones alone.  A run after it finds nothing to do, and a dry run before it returned the
same plan and changed nothing.  How the listings are cut into pages, and how many
there are, makes no difference. -/
theorem run_reconciles
    (py : Interpreter) (deleting : Int) (pages : Nat) (args : RunArgs) (tokenAt : Nat → Str)
    (s s' : Cloud) (plan : List RecordChange)
    (hinj : Function.Injective tokenAt)
    (hfirst : tokenAt 0 = [])
    (hdry : args.dryRun = false)
    (hrun : Completes (CloudAnswer tokenAt) s (run py deleting pages args) (.ok plan) s') :
    ∃ t, targetOf py deleting args s = some t ∧
      Reconciled py t.zone t.prefixes t.inventory.desired args.ttl (args.scope t.inventory)
        (s.records t.zoneId) (recordSetsForBatch plan).1 (recordSetsForBatch plan).2
        (s'.records t.zoneId) ∧
      (∀ zoneId, zoneId ≠ t.zoneId → s'.records zoneId = s.records zoneId) ∧
      (∀ pages' plan' s'',
        Completes (CloudAnswer tokenAt) s' (run py deleting pages' args) (.ok plan') s'' →
          plan' = [] ∧ s''.records = s'.records) ∧
      ∀ pages' plan' s'',
        Completes (CloudAnswer tokenAt) s (run py deleting pages' { args with dryRun := true })
          (.ok plan') s'' → plan' = plan ∧ s'' = s := by
  obtain ⟨t, htarget, hplan, -, hafter⟩ := ended_of_completes hinj hfirst hrun
  replace hafter := hafter hdry
  refine ⟨t, htarget, reconciled_of_plan htarget hplan hafter, ?_, ?_, ?_⟩
  · intro zoneId hne
    rw [hafter.records, Function.update_of_ne hne]
  · intro pages' plan' s'' hagain
    obtain ⟨t', htarget', hplan', -, hafter'⟩ := ended_of_completes hinj hfirst hagain
    rw [targetOf_after hafter, htarget] at htarget'
    cases htarget'
    have hrest := plan_after htarget hplan (slices updateBatch plan).length
    rw [List.take_length, List.drop_length, List.flatten_nil] at hrest
    rw [hafter.records, Function.update_self, hrest] at hplan'
    cases hplan'
    refine ⟨rfl, ?_⟩
    have hnothing := (hafter' hdry).records
    rw [slices_nil (by decide)] at hnothing
    rw [hnothing]
    exact Function.update_eq_self t.zoneId s'.records
  · intro pages' plan' s'' hother
    obtain ⟨t', htarget', hplan', hsame, -⟩ := ended_of_completes hinj hfirst hother
    have heq : targetOf py deleting { args with dryRun := true } s = some t := htarget
    rw [heq] at htarget'
    cases htarget'
    have hplan'' : t.plan py { args with dryRun := true } (s.records t.zoneId) = some plan := hplan
    rw [hplan''] at hplan'
    cases hplan'
    exact ⟨rfl, hsame rfl⟩

theorem run_reconciles_old_cloud :
    ∃ plan s', plan ≠ [] ∧
      Completes (CloudAnswer pageToken) oldCloud (run asciiInterpreter 9 1 zoneArgs)
        (.ok plan) s' ∧
      ∀ zoneId, zoneId ≠ "z1".toList → s'.records zoneId = oldCloud.records zoneId := by
  obtain ⟨t, plan, hid, htarget, hplan, hne⟩ := exists_oldTarget
  have hrun := completes_wholePages htarget hplan
  obtain ⟨t', htarget', -, hothers, -⟩ := run_reconciles asciiInterpreter 9 1 zoneArgs pageToken
    oldCloud _ plan pageToken_injective rfl rfl hrun
  rw [htarget] at htarget'
  cases htarget'
  exact ⟨plan, _, hne, hrun, hid ▸ hothers⟩

/-- Runs that are cut anywhere, fail anywhere and are repeated, dry runs among them, leave
the zone at every moment as the first batches of the first plan make it.  A run that ends
well after them returns the rest of that plan, and the zone is as one run without an
interruption would have left it. -/
theorem runs_converge
    (py : Interpreter) (deleting : Int) (args : RunArgs) (tokenAt : Nat → Str)
    (s s' : Cloud) (start p : CloudProgram (List RecordChange))
    (hinj : Function.Injective tokenAt)
    (hfirst : tokenAt 0 = [])
    (hstart : IsRun py deleting args start)
    (hreach : Restarts (CloudAnswer tokenAt) (IsRun py deleting args) (s, start) (s', p)) :
    (s' = s ∨ ∃ t whole k, targetOf py deleting args s = some t ∧
      t.plan py args (s.records t.zoneId) = some whole ∧
      s'.records = Function.update s.records t.zoneId
        (zoneAfter (s.records t.zoneId) ((slices updateBatch whole).take k))) ∧
    ∀ pages plan s'', args.dryRun = false →
      Completes (CloudAnswer tokenAt) s' (run py deleting pages args) (.ok plan) s'' →
      ∃ t whole k, targetOf py deleting args s = some t ∧
        t.plan py args (s.records t.zoneId) = some whole ∧
        s'.records = Function.update s.records t.zoneId
          (zoneAfter (s.records t.zoneId) ((slices updateBatch whole).take k)) ∧
        plan = ((slices updateBatch whole).drop k).flatten ∧
        s''.records = Function.update s.records t.zoneId
          (zoneAfter (s.records t.zoneId) [whole]) ∧
        Reconciled py t.zone t.prefixes t.inventory.desired args.ttl (args.scope t.inventory)
          (s.records t.zoneId) (recordSetsForBatch whole).1 (recordSetsForBatch whole).2
          (s''.records t.zoneId) := by
  have htrail := trail_of_restarts hinj hfirst hstart hreach
  constructor
  · rcases htrail with hsame | ⟨t, whole, htarget, hwhole, k, hafter⟩
    · exact Or.inl hsame
    · exact Or.inr ⟨t, whole, k, htarget, hwhole, hafter.records⟩
  · intro pages plan s'' hdry hrun
    obtain ⟨t, whole, k, htarget, hwhole, hafter, hrest, hlast⟩ :=
      htrail.completed hinj hfirst hdry hrun
    refine ⟨t, whole, k, htarget, hwhole, hafter.records, hrest, ?_,
      reconciled_of_plan htarget hwhole hlast⟩
    rw [hlast.records, zoneAfter_slices htarget hwhole]

/-- The answer to the first update is lost, the run fails, and another one finds nothing
to do. -/
theorem runs_converge_lost_update :
    ∃ t whole e s₁ plan s₂, targetOf asciiInterpreter 9 zoneArgs oldCloud = some t ∧
      t.plan asciiInterpreter zoneArgs (oldCloud.records t.zoneId) = some whole ∧ whole ≠ [] ∧
      Completes (CloudAnswer pageToken) oldCloud (run asciiInterpreter 9 1 zoneArgs)
        (.error e) s₁ ∧
      After oldCloud t.zoneId [whole.take updateBatch] s₁ ∧
      Completes (CloudAnswer pageToken) s₁ (run asciiInterpreter 9 1 zoneArgs) (.ok plan) s₂ ∧
      (∃ k, plan = ((slices updateBatch whole).drop k).flatten) ∧
      s₂.records = Function.update oldCloud.records t.zoneId
        (zoneAfter (oldCloud.records t.zoneId) [whole]) := by
  obtain ⟨t, whole, -, htarget, hwhole, hne⟩ := exists_oldTarget
  -- the update is carried out, and its answer lost
  have hlost := Program.run_completes (wholePages_answers (.error (.registration (.rpc []))))
    (run asciiInterpreter 9 1 zoneArgs) oldCloud
  rw [run_lostUpdate 0 htarget hwhole rfl hne] at hlost
  have hafter := (After.refl oldCloud t.zoneId).update (whole.take updateBatch)
  have hagain : Restarts (CloudAnswer pageToken) (IsRun asciiInterpreter 9 zoneArgs)
      (oldCloud, run asciiInterpreter 9 1 zoneArgs) (_, run asciiInterpreter 9 1 zoneArgs) :=
    (Restarts.of_reaches hlost).tail (.restart ⟨1, false, rfl⟩)
  have hplan := plan_after htarget hwhole 1
  rw [slices_cons (by decide) hne, List.take_succ_cons, List.take_zero] at hplan
  have hrun := completes_wholePages ((targetOf_after hafter).trans htarget)
    (by rw [hafter.records, Function.update_self]; exact hplan)
  obtain ⟨-, hconverge⟩ := runs_converge asciiInterpreter 9 zoneArgs pageToken oldCloud _ _ _
    pageToken_injective rfl ⟨1, false, rfl⟩ hagain
  obtain ⟨t', whole', k, htarget', hwhole', -, hrest, hlast, -⟩ := hconverge 1 _ _ rfl hrun
  rw [htarget] at htarget'
  cases htarget'
  rw [hwhole] at hwhole'
  cases hwhole'
  exact ⟨t, whole, _, _, _, _, htarget, hwhole, hne, hlost, hafter, hrun, ⟨k, hrest⟩, hlast⟩

end Dns
end YdbSnippets

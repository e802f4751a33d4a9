import YdbSnippets.Dns.Stability

/-!
# Which slot gets which name

`build_inventory` names the slots of every server.  The names do not move: not
with the order of the answers of the API, and not with other addresses.
-/

namespace YdbSnippets
namespace Dns

open Python Matching

/-- A slot under its name. -/
structure NamedSlot where
  fqdn : Str
  label : Str
  serverId : Str
  slot : Slot
deriving DecidableEq, Repr

section Defs

variable (py : Interpreter) (deleting : Int) (prefixes : List Str) (zone : Str)

/-- The servers that are not being deleted. -/
def activeServers (servers : List Server) : List Server :=
  servers.filter fun server => decide (server.state ≠ deleting)

/-- The slots of one server under their names. -/
def nameSlots
    (label serverId : Str) (slots : List (Str × Slot)) : List NamedSlot :=
  slots.map fun slot => ⟨serverName label slot.1 zone, label, serverId, slot.2⟩

/-- `desired` with the record of one slot, if it has an address. -/
def publish
    (desired : Finmap (fun _ : Str => DesiredRecord)) (named : NamedSlot) :
    Finmap (fun _ : Str => DesiredRecord) :=
  if named.slot.address.isEmpty then
    desired
  else
    desired.insert named.fqdn
      ⟨named.fqdn, named.slot.address, named.label, named.serverId⟩

/-- What one server that is not deleted adds: its label and its slots. -/
structure IsEntry (server : Server) (entry : Str × List NamedSlot) : Prop where
  label : serverLabel py server = .ok entry.1
  named : ∃ slots, privateSlots py server = .ok slots ∧ slots.length ≤ prefixes.length ∧
    entry.2 = nameSlots zone entry.1 server.serverId (prefixes.zip slots)
  short : ∀ named ∈ entry.2, named.fqdn.length ≤ dnsNameMax

/-- What all servers add: the labels are distinct, and not taken before. -/
structure AreEntries
    (taken : Finset Str) (servers : List Server)
    (entries : List (Str × List NamedSlot)) : Prop where
  each : List.Forall₂ (IsEntry py prefixes zone) (activeServers deleting servers) entries
  nodup : (entries.map Prod.fst).Nodup
  fresh : ∀ entry ∈ entries, entry.1 ∉ taken

end Defs

section Spec

variable {py : Interpreter} {deleting : Int} {prefixes : List Str} {zone : Str}
variable {desired : Finmap (fun _ : Str => DesiredRecord)} {names : Finset Str}

/-- The inner loop publishes the slots in turn, unless a name is too long. -/
theorem publishSlots_ok_iff
    {label serverId : Str} {slots : List (Str × Slot)} {inv : Inventory} :
    (∃ notes, publishSlots label serverId zone slots inv = .ok ⟨desired, names, notes⟩) ↔
      (∀ named ∈ nameSlots zone label serverId slots, named.fqdn.length ≤ dnsNameMax) ∧
        desired = (nameSlots zone label serverId slots).foldl publish inv.desired ∧
        names = inv.serverNames := by
  induction slots generalizing inv with
  | nil =>
      constructor
      · rintro ⟨notes, h⟩
        cases h
        refine ⟨?_, rfl, rfl⟩
        intro named hnamed
        cases hnamed
      · rintro ⟨-, rfl, rfl⟩
        exact ⟨inv.notes, rfl⟩
  | cons first rest ih =>
      obtain ⟨pre, slot⟩ := first
      simp only [publishSlots, nameSlots, List.map_cons, List.forall_mem_cons, List.foldl_cons]
      by_cases hlong : dnsNameMax < (serverName label pre zone).length
      · rw [if_pos hlong]
        constructor
        · rintro ⟨notes, h⟩
          cases h
        · rintro ⟨⟨hshort, -⟩, -⟩
          exact absurd hlong (Nat.not_lt.mpr hshort)
      · rw [if_neg hlong, and_assoc, and_iff_right (Nat.not_lt.mp hlong)]
        by_cases hempty : slot.address.isEmpty = true
        · rw [if_pos hempty, ih, publish, if_pos hempty]
          rfl
        · rw [if_neg hempty, ih, publish, if_neg hempty]
          rfl

/-- One round of the outer loop that succeeds. -/
theorem entry_of_addServers_cons
    {server : Server} {rest : List Server} {inv : Inventory} {notes : List Note}
    (hactive : server.state ≠ deleting)
    (h : addServers py deleting prefixes zone (server :: rest) inv =
      .ok ⟨desired, names, notes⟩) :
    ∃ entry notes', IsEntry py prefixes zone server entry ∧ entry.1 ∉ inv.serverNames ∧
      addServers py deleting prefixes zone rest
        ⟨entry.2.foldl publish inv.desired, insert entry.1 inv.serverNames, notes'⟩ =
          .ok ⟨desired, names, notes⟩ := by
  simp only [addServers, if_neg hactive] at h
  obtain ⟨label, hlabel, h⟩ := bind_ok_iff.mp h
  split_ifs at h with hfresh
  obtain ⟨slots, hslots, h⟩ := bind_ok_iff.mp h
  split_ifs at h with hmany hempty
  · cases List.isEmpty_iff.mp hempty
    refine ⟨(label, []), _, ⟨hlabel, ⟨[], hslots, Nat.not_lt.mp hmany, ?_⟩, ?_⟩, hfresh, h⟩
    · rw [List.zip_nil_right]
      rfl
    · intro named hnamed
      cases hnamed
  · obtain ⟨⟨desired', names', notes'⟩, hpublish, h⟩ := bind_ok_iff.mp h
    obtain ⟨hshort, rfl, rfl⟩ := publishSlots_ok_iff.mp ⟨notes', hpublish⟩
    exact ⟨(label, nameSlots zone label server.serverId (prefixes.zip slots)), notes',
      ⟨hlabel, ⟨slots, hslots, Nat.not_lt.mp hmany, rfl⟩, hshort⟩, hfresh, h⟩

/-- One round of the outer loop succeeds when there is an entry to add. -/
theorem addServers_cons_of_entry
    {server : Server} {rest : List Server} {inv : Inventory}
    {entry : Str × List NamedSlot}
    (hactive : server.state ≠ deleting)
    (hentry : IsEntry py prefixes zone server entry) (hfresh : entry.1 ∉ inv.serverNames)
    (hrest : ∀ notes', ∃ notes, addServers py deleting prefixes zone rest
      ⟨entry.2.foldl publish inv.desired, insert entry.1 inv.serverNames, notes'⟩ =
        .ok ⟨desired, names, notes⟩) :
    ∃ notes, addServers py deleting prefixes zone (server :: rest) inv =
      .ok ⟨desired, names, notes⟩ := by
  obtain ⟨label, named⟩ := entry
  obtain ⟨hlabel, ⟨slots, hslots, hfew, hnamed⟩, hshort⟩ := hentry
  dsimp only at hlabel hnamed hshort hfresh hrest
  subst hnamed
  simp only [addServers, if_neg hactive]
  cases hcase : slots.isEmpty with
  | true =>
      cases List.isEmpty_iff.mp hcase
      rw [List.zip_nil_right] at hrest
      obtain ⟨notes, h⟩ := hrest (inv.notes ++ [.noInterfaces label])
      refine ⟨notes, bind_ok_iff.mpr ⟨label, hlabel, ?_⟩⟩
      rw [if_neg hfresh]
      refine bind_ok_iff.mpr ⟨[], hslots, ?_⟩
      rw [if_neg (Nat.not_lt.mpr hfew), if_pos hcase]
      exact h
  | false =>
      obtain ⟨notes', hpublish⟩ := publishSlots_ok_iff.mpr ⟨hshort, rfl, rfl⟩
      obtain ⟨notes, h⟩ := hrest notes'
      refine ⟨notes, bind_ok_iff.mpr ⟨label, hlabel, ?_⟩⟩
      rw [if_neg hfresh]
      refine bind_ok_iff.mpr ⟨slots, hslots, ?_⟩
      rw [if_neg (Nat.not_lt.mpr hfew), if_neg (by rw [hcase]; decide)]
      exact bind_ok_iff.mpr ⟨_, hpublish, h⟩

/-- The outer loop adds the entries of all servers. -/
theorem addServers_ok_iff
    {servers : List Server} {inv : Inventory} :
    (∃ notes, addServers py deleting prefixes zone servers inv = .ok ⟨desired, names, notes⟩) ↔
      ∃ entries, AreEntries py deleting prefixes zone inv.serverNames servers entries ∧
        desired = (entries.flatMap Prod.snd).foldl publish inv.desired ∧
        names = inv.serverNames ∪ (entries.map Prod.fst).toFinset := by
  induction servers generalizing inv with
  | nil =>
      constructor
      · rintro ⟨notes, h⟩
        cases h
        exact ⟨[], ⟨List.Forall₂.nil, List.nodup_nil, by simp⟩, rfl, by simp⟩
      · rintro ⟨entries, ⟨heach, -, -⟩, hdesired, hnames⟩
        cases heach
        refine ⟨inv.notes, ?_⟩
        rw [hdesired, hnames]
        simp [addServers]
  | cons server rest ih =>
      by_cases hstate : server.state = deleting
      · have hactive : activeServers deleting (server :: rest) = activeServers deleting rest := by
          simp [activeServers, hstate]
        have hentries : ∀ entries,
            AreEntries py deleting prefixes zone inv.serverNames (server :: rest) entries ↔
              AreEntries py deleting prefixes zone inv.serverNames rest entries := by
          intro entries
          constructor
          · rintro ⟨heach, hnodup, hfresh⟩
            exact ⟨hactive ▸ heach, hnodup, hfresh⟩
          · rintro ⟨heach, hnodup, hfresh⟩
            exact ⟨hactive.symm ▸ heach, hnodup, hfresh⟩
        simp only [addServers, if_pos hstate, hentries]
        exact ih
      · have hactive : activeServers deleting (server :: rest) =
            server :: activeServers deleting rest := by
          simp [activeServers, hstate]
        constructor
        · rintro ⟨notes, h⟩
          obtain ⟨entry, notes', hentry, hfresh, h⟩ := entry_of_addServers_cons hstate h
          obtain ⟨entries, ⟨heach, hnodup, hother⟩, rfl, rfl⟩ := ih.mp ⟨notes, h⟩
          refine ⟨entry :: entries, ⟨?_, ?_, ?_⟩, ?_, ?_⟩
          · rw [hactive]
            exact List.Forall₂.cons hentry heach
          · rw [List.map_cons, List.nodup_cons]
            refine ⟨?_, hnodup⟩
            rintro hmem
            obtain ⟨other, hother', heq⟩ := List.mem_map.mp hmem
            exact hother other hother' (heq ▸ Finset.mem_insert_self _ _)
          · rw [List.forall_mem_cons]
            exact ⟨hfresh, fun other hother' hmem =>
              hother other hother' (Finset.mem_insert_of_mem hmem)⟩
          · rw [List.flatMap_cons, List.foldl_append]
          · simp [Finset.insert_union]
        · rintro ⟨entries, ⟨heach, hnodup, hfresh⟩, rfl, rfl⟩
          rw [hactive] at heach
          obtain ⟨entry, entries, hentry, hrest, rfl⟩ := List.forall₂_cons_left_iff.mp heach
          rw [List.map_cons, List.nodup_cons] at hnodup
          rw [List.forall_mem_cons] at hfresh
          refine addServers_cons_of_entry hstate hentry hfresh.1 fun notes' => ?_
          refine ih.mpr ⟨entries, ⟨hrest, hnodup.2, ?_⟩, ?_, ?_⟩
          · intro other hother hmem
            rcases Finset.mem_insert.mp hmem with heq | hmem
            · exact hnodup.1 (List.mem_map.mpr ⟨other, hother, heq⟩)
            · exact hfresh.2 other hother hmem
          · rw [List.flatMap_cons, List.foldl_append]
          · simp [Finset.insert_union]

end Spec

/-! ## Servers in any order -/

section Order

variable {py : Interpreter} {deleting : Int} {prefixes : List Str} {zone : Str}

/-- The part of a name in front of its first dot. -/
def labelOf (fqdn : Str) : Str :=
  fqdn.takeWhile fun c => decide (c ≠ '.')

theorem labelOf_serverName
    {label : Str} (pre zone : Str)
    (hlabel : isDnsLabel label = true) :
    labelOf (serverName label pre zone) = label := by
  have hchars : ∀ c ∈ label, decide (c ≠ '.') = true := by
    intro c hc
    rw [decide_eq_true_eq]
    rintro rfl
    exact (isDnsLabel_spec hlabel).2.2 hc
  unfold labelOf serverName
  rw [List.append_assoc, List.takeWhile_append_of_pos hchars, List.cons_append,
    List.takeWhile_cons_of_neg (by decide), List.append_nil]

theorem isDnsLabel_of_serverLabel
    {server : Server} {label : Str}
    (h : serverLabel py server = .ok label) :
    isDnsLabel label = true := by
  unfold serverLabel at h
  simp only at h
  split_ifs at h with hcheck
  cases h
  exact hcheck

theorem labelOf_of_isEntry
    {server : Server} {entry : Str × List NamedSlot} {named : NamedSlot}
    (h : IsEntry py prefixes zone server entry) (hnamed : named ∈ entry.2) :
    labelOf named.fqdn = entry.1 := by
  obtain ⟨slots, -, -, heq⟩ := h.named
  rw [heq] at hnamed
  obtain ⟨slot, -, rfl⟩ := List.mem_map.mp hnamed
  exact labelOf_serverName _ _ (isDnsLabel_of_serverLabel h.label)

theorem AreEntries.labelOf
    {taken : Finset Str} {servers : List Server} {entries : List (Str × List NamedSlot)}
    (h : AreEntries py deleting prefixes zone taken servers entries) :
    ∀ entry ∈ entries, ∀ named ∈ entry.2, labelOf named.fqdn = entry.1 := by
  intro entry hentry named hnamed
  have hmatched : Matched (IsEntry py prefixes zone) (activeServers deleting servers) entries :=
    ⟨entries, List.Perm.refl _, h.each⟩
  obtain ⟨server, -, hserver⟩ := hmatched.exists_left hentry
  exact labelOf_of_isEntry hserver hnamed

theorem publish_comm
    {a b : NamedSlot} (desired : Finmap (fun _ : Str => DesiredRecord))
    (hne : a.fqdn ≠ b.fqdn) :
    publish (publish desired a) b = publish (publish desired b) a := by
  unfold publish
  split_ifs
  · rfl
  · rfl
  · rfl
  · exact Finmap.insert_insert_of_ne _ hne

/-- Publishing two lists of slots without a common name can be swapped. -/
theorem foldl_publish_comm
    {as bs : List NamedSlot} (desired : Finmap (fun _ : Str => DesiredRecord))
    (hne : ∀ a ∈ as, ∀ b ∈ bs, a.fqdn ≠ b.fqdn) :
    bs.foldl publish (as.foldl publish desired) = as.foldl publish (bs.foldl publish desired) := by
  have hone : ∀ (a : NamedSlot) (bs : List NamedSlot) (desired : _),
      (∀ b ∈ bs, a.fqdn ≠ b.fqdn) →
        bs.foldl publish (publish desired a) = publish (bs.foldl publish desired) a := by
    intro a bs
    induction bs with
    | nil => exact fun _ _ => rfl
    | cons b bs ih =>
        intro desired hne
        rw [List.foldl_cons, List.foldl_cons, publish_comm _ (hne b List.mem_cons_self)]
        exact ih _ fun b hb => hne b (List.mem_cons_of_mem _ hb)
  induction as generalizing desired with
  | nil => rfl
  | cons a as ih =>
      rw [List.foldl_cons, List.foldl_cons, ih _ fun a ha => hne a (List.mem_cons_of_mem _ ha),
        hone a bs desired (hne a List.mem_cons_self)]

/-- The order in which the entries are published does not matter. -/
theorem foldl_publish_perm
    {taken : Finset Str} {servers : List Server}
    {entries entries' : List (Str × List NamedSlot)}
    (hentries : AreEntries py deleting prefixes zone taken servers entries)
    (hperm : entries.Perm entries') (desired : Finmap (fun _ : Str => DesiredRecord)) :
    (entries.flatMap Prod.snd).foldl publish desired =
      (entries'.flatMap Prod.snd).foldl publish desired := by
  rw [List.foldl_flatMap, List.foldl_flatMap]
  refine hperm.foldl_eq' (fun a ha b hb desired => ?_) desired
  by_cases hab : a = b
  · rw [hab]
  · refine foldl_publish_comm desired fun n hn m hm heq => hab ?_
    refine List.inj_on_of_nodup_map hentries.nodup ha hb ?_
    rw [← hentries.labelOf a ha n hn, ← hentries.labelOf b hb m hm, heq]

theorem isEntry_rearranged
    {server server' : Server} {entry : Str × List NamedSlot}
    (h : ServerRearranged server server') (hdistinct : DistinctIds server)
    (hentry : IsEntry py prefixes zone server entry) :
    IsEntry py prefixes zone server' entry := by
  obtain ⟨hlabel, ⟨slots, hslots, hfew, hnamed⟩, hshort⟩ := hentry
  refine ⟨?_, ⟨slots, ?_, hfew, h.serverId ▸ hnamed⟩, hshort⟩
  · rw [← hlabel]
    unfold serverLabel
    rw [h.name, h.serverId]
  · exact privateSlots_ok_iff.mpr
      (isServerSlots_rearranged h hdistinct (privateSlots_ok_iff.mp hslots))

/-- Rearranged servers add the same entries, in another order. -/
theorem areEntries_rearranged
    {taken : Finset Str} {servers servers' : List Server}
    {entries : List (Str × List NamedSlot)}
    (h : Matched ServerRearranged servers servers')
    (hdistinct : ∀ server ∈ servers, DistinctIds server)
    (hentries : AreEntries py deleting prefixes zone taken servers entries) :
    ∃ entries', AreEntries py deleting prefixes zone taken servers' entries' ∧
      entries.Perm entries' := by
  have hactive : Matched ServerRearranged (activeServers deleting servers)
      (activeServers deleting servers') :=
    h.filter fun server server' hserver => by rw [hserver.state]
  obtain ⟨mid, hmid, hforall⟩ := hactive
  have hmiddle : List.Forall₂ (IsEntry py prefixes zone) mid entries := by
    refine forall₂_of_forall₂ hforall hentries.each ?_
    intro server hserver server' entry hrel hentry
    exact isEntry_rearranged hrel (hdistinct server (List.mem_of_mem_filter hserver)) hentry
  obtain ⟨entries', hentries', hperm⟩ := List.perm_comp_forall₂ hmid.symm hmiddle
  refine ⟨entries', ⟨hentries', ?_, ?_⟩, hperm.symm⟩
  · exact (hperm.map _).nodup_iff.mpr hentries.nodup
  · exact fun entry hentry => hentries.fresh entry (hperm.mem_iff.mp hentry)

end Order

/-! ## One address or the public interfaces changed -/

section Changed

variable {py : Interpreter} {deleting : Int} {prefixes : List Str} {zone : Str}

/-- The same slot under the same name, whatever its address. -/
structure SameName (named named' : NamedSlot) : Prop where
  fqdn : named.fqdn = named'.fqdn
  label : named.label = named'.label
  serverId : named.serverId = named'.serverId
  slot : SameSlot named.slot named'.slot

/-- What is published at a name is decided by what was there and by the slots
of that name. -/
theorem lookup_foldl_publish_congr
    {desired desired' : Finmap (fun _ : Str => DesiredRecord)} {fqdn : Str}
    (named : List NamedSlot) (h : desired.lookup fqdn = desired'.lookup fqdn) :
    (named.foldl publish desired).lookup fqdn = (named.foldl publish desired').lookup fqdn := by
  induction named generalizing desired desired' with
  | nil => exact h
  | cons first rest ih =>
      refine ih ?_
      unfold publish
      split_ifs
      · exact h
      · by_cases hname : fqdn = first.fqdn
        · rw [hname, Finmap.lookup_insert, Finmap.lookup_insert]
        · rw [Finmap.lookup_insert_of_ne _ hname, Finmap.lookup_insert_of_ne _ hname, h]

theorem lookup_publish_of_ne
    {desired : Finmap (fun _ : Str => DesiredRecord)} {named : NamedSlot} {fqdn : Str}
    (hne : fqdn ≠ named.fqdn) :
    (publish desired named).lookup fqdn = desired.lookup fqdn := by
  unfold publish
  split_ifs
  · rfl
  · exact Finmap.lookup_insert_of_ne _ hne

/-- Another address of one slot only shows at the name of this slot. -/
theorem lookup_foldl_publish_replaced
    {named named' : List NamedSlot} (desired : Finmap (fun _ : Str => DesiredRecord))
    (h : Replaced SameName named named') :
    Replaced (fun slot slot' => SameName slot slot' ∧ ∀ fqdn ≠ slot.fqdn,
      (named.foldl publish desired).lookup fqdn = (named'.foldl publish desired).lookup fqdn)
      named named' := by
  obtain ⟨front, slot, slot', back, rfl, rfl, hslot⟩ := h
  refine ⟨front, slot, slot', back, rfl, rfl, hslot, fun fqdn hne => ?_⟩
  rw [List.foldl_append, List.foldl_append, List.foldl_cons, List.foldl_cons]
  refine lookup_foldl_publish_congr back ?_
  rw [lookup_publish_of_ne hne, lookup_publish_of_ne (hslot.fqdn ▸ hne)]

theorem isEntry_readdressed
    {server server' : Server} {entry : Str × List NamedSlot}
    (h : ServerReaddressed py server server')
    (hentry : IsEntry py prefixes zone server entry) :
    ∃ entry', IsEntry py prefixes zone server' entry' ∧
      entry.1 = entry'.1 ∧ Replaced SameName entry.2 entry'.2 := by
  obtain ⟨label, named⟩ := entry
  obtain ⟨hlabel, ⟨slots, hslots, hfew, hnamed⟩, hshort⟩ := hentry
  dsimp only at hlabel hnamed hshort
  subst hnamed
  obtain ⟨slots', hslots', hreplaced⟩ :=
    isServerSlots_readdressed h (privateSlots_ok_iff.mp hslots)
  have hlength := hreplaced.length_eq
  have hnames : Replaced SameName (nameSlots zone label server.serverId (prefixes.zip slots))
      (nameSlots zone label server'.serverId (prefixes.zip slots')) := by
    rw [← h.serverId]
    refine (hreplaced.zip_left hfew).map ?_
    rintro ⟨pre, slot⟩ ⟨pre', slot'⟩ ⟨rfl, hslot⟩
    exact ⟨rfl, rfl, rfl, hslot⟩
  refine ⟨(label, nameSlots zone label server'.serverId (prefixes.zip slots')),
    ⟨?_, ⟨slots', privateSlots_ok_iff.mpr hslots', hlength ▸ hfew, rfl⟩, ?_⟩, rfl, hnames⟩
  · rw [← hlabel]
    unfold serverLabel
    rw [h.name, h.serverId]
  · refine hnames.forall_mem hshort fun named named' hsame hlength => ?_
    exact hsame.fqdn ▸ hlength

/-- With one address changed the servers add the same entries, except for that
address. -/
theorem areEntries_readdressed
    {taken : Finset Str} {servers servers' : List Server}
    {entries : List (Str × List NamedSlot)}
    (h : Replaced (ServerReaddressed py) servers servers')
    (hentries : AreEntries py deleting prefixes zone taken servers entries) :
    ∃ entries', AreEntries py deleting prefixes zone taken servers' entries' ∧
      entries.map Prod.fst = entries'.map Prod.fst ∧
      (entries = entries' ∨
        Replaced SameName (entries.flatMap Prod.snd) (entries'.flatMap Prod.snd)) := by
  obtain ⟨front, server, server', back, rfl, rfl, hserver⟩ := h
  by_cases hstate : server.state = deleting
  · have hsame : activeServers deleting (front ++ server :: back) =
        activeServers deleting (front ++ server' :: back) := by
      have hstate' := hserver.state ▸ hstate
      simp [activeServers, hstate, hstate']
    exact ⟨entries, ⟨hsame ▸ hentries.each, hentries.nodup, hentries.fresh⟩, rfl, Or.inl rfl⟩
  · have hactive : ∀ server : Server, server.state ≠ deleting →
        activeServers deleting (front ++ server :: back) =
          activeServers deleting front ++ server :: activeServers deleting back := by
      intro server hstate
      simp [activeServers, hstate]
    have hreplaced : Replaced (ServerReaddressed py)
        (activeServers deleting (front ++ server :: back))
        (activeServers deleting (front ++ server' :: back)) :=
      ⟨_, server, server', _, hactive server hstate, hactive server' (hserver.state ▸ hstate),
        hserver⟩
    obtain ⟨entries', heach', hentry⟩ := hreplaced.forall₂ hentries.each
      (S := fun entry entry' => entry.1 = entry'.1 ∧ Replaced SameName entry.2 entry'.2)
      fun server server' h entry hentry => isEntry_readdressed h hentry
    have hlabels : entries.map Prod.fst = entries'.map Prod.fst := by
      obtain ⟨front, entry, entry', back, rfl, rfl, hlabel, -⟩ := hentry
      simp [hlabel]
    refine ⟨entries', ⟨heach', hlabels ▸ hentries.nodup, ?_⟩, hlabels, Or.inr ?_⟩
    · intro entry' hentry'
      have hmem : entry'.1 ∈ entries.map Prod.fst :=
        hlabels ▸ List.mem_map_of_mem hentry'
      obtain ⟨entry, hentry, heq⟩ := List.mem_map.mp hmem
      exact heq ▸ hentries.fresh entry hentry
    · refine Replaced.flatten (hentry.map fun entry entry' h => ?_)
      exact h.2

/-- Public interfaces play no part in the inventory. -/
theorem addServers_publicEdited
    {servers servers' : List Server} {inv : Inventory}
    (h : List.Forall₂ PublicEdited servers servers') :
    addServers py deleting prefixes zone servers inv =
      addServers py deleting prefixes zone servers' inv := by
  induction h generalizing inv with
  | nil => rfl
  | @cons server server' _ _ hserver _ ih =>
      have hlabel : serverLabel py server = serverLabel py server' := by
        unfold serverLabel
        rw [hserver.name, hserver.serverId]
      simp only [addServers, hserver.state, hserver.name, hserver.serverId, hlabel,
        privateSlots_publicEdited hserver, ih]

end Changed

/-! ## Every slot under a name of its own -/

section Names

variable {py : Interpreter} {deleting : Int} {prefixes : List Str} {zone : Str}

/-- The slots of one server under names of the zone. -/
structure NamesSlots
    (py : Interpreter) (prefixes : List Str) (zone : Str)
    (server : Server) (named : List NamedSlot) : Prop where
  slots : Matched (Canonical py server.shown) (declaredSlots server)
    (named.map fun slot => slot.slot)
  names : ∀ slot ∈ named, serverLabel py server = .ok slot.label ∧
    slot.serverId = server.serverId ∧
    ∃ pre ∈ prefixes, slot.fqdn = serverName slot.label pre zone

theorem namesSlots_of_isEntry
    {server : Server} {entry : Str × List NamedSlot}
    (h : IsEntry py prefixes zone server entry) :
    NamesSlots py prefixes zone server entry.2 := by
  obtain ⟨label, named⟩ := entry
  obtain ⟨hlabel, ⟨slots, hslots, hfew, hnamed⟩, -⟩ := h
  dsimp only at hlabel hnamed ⊢
  subst hnamed
  constructor
  · have hmap : (nameSlots zone label server.serverId (prefixes.zip slots)).map
        (fun slot => slot.slot) = slots := by
      unfold nameSlots
      rw [List.map_map]
      exact List.map_snd_zip hfew
    rw [hmap]
    exact isServerSlots_declared (privateSlots_ok_iff.mp hslots)
  · intro slot hslot
    obtain ⟨pair, hpair, rfl⟩ := List.mem_map.mp hslot
    exact ⟨hlabel, rfl, pair.1, (List.of_mem_zip hpair).1, rfl⟩

/-- Names of different servers and of different prefixes differ. -/
theorem AreEntries.names_nodup
    {taken : Finset Str} {servers : List Server} {entries : List (Str × List NamedSlot)}
    (h : AreEntries py deleting prefixes zone taken servers entries)
    (hprefixes : prefixes.Nodup) :
    ((entries.flatMap Prod.snd).map fun slot => slot.fqdn).Nodup := by
  rw [List.map_flatMap, List.nodup_flatMap]
  constructor
  · intro entry hentry
    have hmatched : Matched (IsEntry py prefixes zone) (activeServers deleting servers) entries :=
      ⟨entries, List.Perm.refl _, h.each⟩
    obtain ⟨server, -, hserver⟩ := hmatched.exists_left hentry
    obtain ⟨slots, -, -, heq⟩ := hserver.named
    have hnames : entry.2.map (fun slot => slot.fqdn) =
        ((prefixes.zip slots).map Prod.fst).map fun pre => serverName entry.1 pre zone := by
      rw [heq, nameSlots, List.map_map, List.map_map]
      rfl
    rw [hnames]
    refine (hprefixes.sublist (map_fst_zip_sublist _ _)).map fun pre pre' hname => ?_
    unfold serverName at hname
    rw [List.append_assoc, List.append_assoc] at hname
    have hrest := List.append_cancel_left hname
    rw [List.cons_append, List.cons_append, List.cons.injEq] at hrest
    exact List.append_cancel_right hrest.2
  · have hne : entries.Pairwise fun a b => a.1 ≠ b.1 := List.pairwise_map.mp h.nodup
    refine List.Pairwise.imp_of_mem ?_ hne
    intro a b ha hb hab
    unfold Function.onFun
    rw [List.disjoint_left]
    intro fqdn hfqdn hfqdn'
    obtain ⟨slot, hslot, rfl⟩ := List.mem_map.mp hfqdn
    obtain ⟨slot', hslot', heq⟩ := List.mem_map.mp hfqdn'
    exact hab (by rw [← h.labelOf a ha slot hslot, ← h.labelOf b hb slot' hslot', heq])

/-- The record of a slot. -/
def NamedSlot.record (named : NamedSlot) : DesiredRecord :=
  ⟨named.fqdn, named.slot.address, named.label, named.serverId⟩

theorem lookup_foldl_publish_of_notMem
    {fqdn : Str} {named : List NamedSlot}
    (desired : Finmap (fun _ : Str => DesiredRecord))
    (h : ∀ slot ∈ named, fqdn ≠ slot.fqdn) :
    (named.foldl publish desired).lookup fqdn = desired.lookup fqdn := by
  induction named generalizing desired with
  | nil => rfl
  | cons first rest ih =>
      rw [List.foldl_cons, ih _ fun slot hslot => h slot (List.mem_cons_of_mem _ hslot)]
      exact lookup_publish_of_ne (h first List.mem_cons_self)

/-- What is published are the records of the slots with an address. -/
theorem lookup_foldl_publish_iff
    {named : List NamedSlot} {fqdn : Str} {r : DesiredRecord}
    (hnodup : (named.map fun slot => slot.fqdn).Nodup) :
    (named.foldl publish ∅).lookup fqdn = some r ↔
      ∃ slot ∈ named, slot.slot.address ≠ [] ∧ slot.fqdn = fqdn ∧ slot.record = r := by
  have hslot : ∀ slot ∈ named, (named.foldl publish ∅).lookup slot.fqdn =
      if slot.slot.address = [] then none else some slot.record := by
    intro slot hslot
    obtain ⟨front, back, rfl⟩ := List.append_of_mem hslot
    rw [List.map_append, List.map_cons, List.nodup_append] at hnodup
    obtain ⟨-, hback, hdisjoint⟩ := hnodup
    have hafter : ∀ other ∈ back, slot.fqdn ≠ other.fqdn := by
      intro other hother heq
      exact (List.nodup_cons.mp hback).1 (heq ▸ List.mem_map_of_mem hother)
    have hbefore : ∀ other ∈ front, slot.fqdn ≠ other.fqdn := by
      intro other hother heq
      exact hdisjoint _ (List.mem_map_of_mem hother) _ List.mem_cons_self heq.symm
    have hempty := lookup_foldl_publish_of_notMem ∅ hbefore
    rw [List.foldl_append, List.foldl_cons, lookup_foldl_publish_of_notMem _ hafter]
    generalize front.foldl publish ∅ = before at hempty
    unfold publish
    by_cases haddress : slot.slot.address = []
    · rw [if_pos (List.isEmpty_iff.mpr haddress), if_pos haddress, hempty, Finmap.lookup_empty]
    · rw [if_neg (fun h => haddress (List.isEmpty_iff.mp h)), if_neg haddress,
        Finmap.lookup_insert]
      rfl
  constructor
  · intro h
    by_cases hmem : ∃ slot ∈ named, slot.fqdn = fqdn
    · obtain ⟨slot, hmem, rfl⟩ := hmem
      rw [hslot slot hmem] at h
      split_ifs at h with hempty
      exact ⟨slot, hmem, hempty, rfl, Option.some.inj h⟩
    · push Not at hmem
      rw [lookup_foldl_publish_of_notMem _ fun slot h => (hmem slot h).symm,
        Finmap.lookup_empty] at h
      cases h
  · rintro ⟨slot, hmem, haddress, rfl, rfl⟩
    rw [hslot slot hmem, if_neg haddress]

end Names

/-! ## The inventory as a whole -/

section Whole

variable (py : Interpreter) (deleting : Int) (prefixes : List Str) (zone : Str)

/-- Every slot of the servers that are not being deleted, under its name. -/
def assignedSlots (servers : List Server) : Except RegistrationError (List NamedSlot) := do
  let zone ← normalizeZone py zone
  let blocks ← (activeServers deleting servers).mapM fun server => do
    let label ← serverLabel py server
    let slots ← privateSlots py server
    return nameSlots zone label server.serverId (prefixes.zip slots)
  return blocks.flatten

/-- The desired map and the names of the servers, if `build_inventory` does not
fail. -/
def outcome
    (result : Except RegistrationError Inventory) :
    Option (Finmap (fun _ : Str => DesiredRecord) × Finset Str) :=
  result.toOption.map fun inv => (inv.desired, inv.serverNames)

/-- The second inventory names the same slots, of which one at most has another
address; the records at all other names are the same. -/
structure OneAddressChanged
    (servers servers' : List Server) (inv inv' : Inventory) : Prop where
  serverNames : inv.serverNames = inv'.serverNames
  assigned : ∃ named named', assignedSlots py deleting prefixes zone servers = .ok named ∧
    assignedSlots py deleting prefixes zone servers' = .ok named' ∧
    (named = named' ∧ inv.desired = inv'.desired ∨
      Replaced (fun slot slot' => SameName slot slot' ∧
        ∀ fqdn ≠ slot.fqdn, inv.desired.lookup fqdn = inv'.desired.lookup fqdn) named named')

/-- The inventory has one record for every slot with an address, each under a
name of its own. -/
structure NamesEverySlot (servers : List Server) (inv : Inventory) : Prop where
  assigned : ∃ zone' blocks, normalizeZone py zone = .ok zone' ∧
    assignedSlots py deleting prefixes zone servers = .ok blocks.flatten ∧
    List.Forall₂ (NamesSlots py prefixes zone') (activeServers deleting servers) blocks ∧
    (blocks.flatten.map fun slot => slot.fqdn).Nodup ∧
    ∀ fqdn r, inv.desired.lookup fqdn = some r ↔
      ∃ slot ∈ blocks.flatten, slot.slot.address ≠ [] ∧ slot.fqdn = fqdn ∧ slot.record = r

variable {py deleting prefixes zone}

theorem buildInventory_ok_iff
    {servers : List Server} {desired : Finmap (fun _ : Str => DesiredRecord)}
    {names : Finset Str} :
    (∃ notes, buildInventory py deleting servers prefixes zone =
        .ok ⟨desired, names, notes⟩) ↔
      ∃ zone' entries, normalizeZone py zone = .ok zone' ∧
        AreEntries py deleting prefixes zone' ∅ servers entries ∧
        desired = (entries.flatMap Prod.snd).foldl publish ∅ ∧
        names = (entries.map Prod.fst).toFinset := by
  unfold buildInventory
  constructor
  · rintro ⟨notes, h⟩
    obtain ⟨zone', hzone, h⟩ := bind_ok_iff.mp h
    obtain ⟨entries, hentries, hdesired, hnames⟩ := addServers_ok_iff.mp ⟨notes, h⟩
    exact ⟨zone', entries, hzone, hentries, hdesired, by rw [hnames, Finset.empty_union]⟩
  · rintro ⟨zone', entries, hzone, hentries, hdesired, hnames⟩
    have hnames' : names = ∅ ∪ (entries.map Prod.fst).toFinset := by
      rw [hnames, Finset.empty_union]
    obtain ⟨notes, h⟩ := (@addServers_ok_iff py deleting prefixes zone' desired names servers
      ⟨∅, ∅, []⟩).mpr ⟨entries, hentries, hdesired, hnames'⟩
    exact ⟨notes, bind_ok_iff.mpr ⟨zone', hzone, h⟩⟩

theorem assignedSlots_of_areEntries
    {zone' : Str} {servers : List Server} {entries : List (Str × List NamedSlot)}
    (hzone : normalizeZone py zone = .ok zone')
    (h : AreEntries py deleting prefixes zone' ∅ servers entries) :
    assignedSlots py deleting prefixes zone servers = .ok (entries.flatMap Prod.snd) := by
  unfold assignedSlots
  refine bind_ok_iff.mpr ⟨zone', hzone, bind_ok_iff.mpr ⟨entries.map Prod.snd, ?_, rfl⟩⟩
  rw [mapM_ok_iff, List.forall₂_map_right_iff]
  refine h.each.imp fun server entry hentry => ?_
  obtain ⟨slots, hslots, -, hnamed⟩ := hentry.named
  rw [hnamed]
  exact bind_ok_iff.mpr ⟨entry.1, hentry.label, bind_ok_iff.mpr ⟨slots, hslots, rfl⟩⟩

theorem outcome_eq_some_iff
    {servers : List Server} {desired : Finmap (fun _ : Str => DesiredRecord)}
    {names : Finset Str} :
    outcome (buildInventory py deleting servers prefixes zone) = some (desired, names) ↔
      ∃ notes, buildInventory py deleting servers prefixes zone = .ok ⟨desired, names, notes⟩ := by
  cases buildInventory py deleting servers prefixes zone with
  | error e =>
      constructor
      · intro h
        cases h
      · rintro ⟨notes, h⟩
        cases h
  | ok inv =>
      constructor
      · intro h
        cases h
        exact ⟨inv.notes, rfl⟩
      · rintro ⟨notes, h⟩
        cases h
        rfl

theorem outcome_rearranged
    {servers servers' : List Server}
    {result : Finmap (fun _ : Str => DesiredRecord) × Finset Str}
    (h : Matched ServerRearranged servers servers')
    (hdistinct : ∀ server ∈ servers, DistinctIds server)
    (hresult : outcome (buildInventory py deleting servers prefixes zone) = some result) :
    outcome (buildInventory py deleting servers' prefixes zone) = some result := by
  obtain ⟨desired, names⟩ := result
  rw [outcome_eq_some_iff, buildInventory_ok_iff] at hresult ⊢
  obtain ⟨zone', entries, hzone, hentries, rfl, rfl⟩ := hresult
  obtain ⟨entries', hentries', hperm⟩ := areEntries_rearranged h hdistinct hentries
  refine ⟨zone', entries', hzone, hentries', foldl_publish_perm hentries hperm ∅, ?_⟩
  exact List.toFinset_eq_of_perm _ _ (hperm.map _)

theorem oneAddressChanged_of_readdressed
    {servers servers' : List Server} {inv : Inventory}
    (h : Replaced (ServerReaddressed py) servers servers')
    (hinv : buildInventory py deleting servers prefixes zone = .ok inv) :
    ∃ inv', buildInventory py deleting servers' prefixes zone = .ok inv' ∧
      OneAddressChanged py deleting prefixes zone servers servers' inv inv' := by
  obtain ⟨desired, names, notes⟩ := inv
  obtain ⟨zone', entries, hzone, hentries, rfl, rfl⟩ := buildInventory_ok_iff.mp ⟨notes, hinv⟩
  obtain ⟨entries', hentries', hlabels, hnamed⟩ := areEntries_readdressed h hentries
  obtain ⟨notes', hinv'⟩ := buildInventory_ok_iff.mpr
    ⟨zone', entries', hzone, hentries', rfl, rfl⟩
  refine ⟨_, hinv', ?_, _, _, assignedSlots_of_areEntries hzone hentries,
    assignedSlots_of_areEntries hzone hentries', ?_⟩
  · rw [hlabels]
  · rcases hnamed with rfl | hnamed
    · exact Or.inl ⟨rfl, rfl⟩
    · exact Or.inr (lookup_foldl_publish_replaced ∅ hnamed)

theorem namesEverySlot_of_ok
    {servers : List Server} {inv : Inventory}
    (hprefixes : prefixes.Nodup)
    (hinv : buildInventory py deleting servers prefixes zone = .ok inv) :
    NamesEverySlot py deleting prefixes zone servers inv := by
  obtain ⟨desired, names, notes⟩ := inv
  obtain ⟨zone', entries, hzone, hentries, rfl, rfl⟩ := buildInventory_ok_iff.mp ⟨notes, hinv⟩
  refine ⟨zone', entries.map Prod.snd, hzone, assignedSlots_of_areEntries hzone hentries, ?_,
    hentries.names_nodup hprefixes,
    fun fqdn r => lookup_foldl_publish_iff (hentries.names_nodup hprefixes)⟩
  rw [List.forall₂_map_right_iff]
  exact hentries.each.imp fun server entry hentry => namesSlots_of_isEntry hentry

/-- A server with two interfaces, one of them with two VLANs. -/
def rackServer : Server where
  serverId := "id1".toList
  name := "Server1".toList
  state := 0
  networkInterfaces :=
    [{ networkInterfaceId := "2".toList
       configurationNetworkInterfaceId := "10".toList
       macAddress := []
       privateInterface := some ⟨"net".toList, "10.0.0.5".toList, []⟩ },
     { networkInterfaceId := "1".toList
       configurationNetworkInterfaceId := "9".toList
       macAddress := []
       privateInterface := some ⟨"net".toList, [],
         [⟨"b".toList, "10.0.0.7".toList⟩, ⟨"7".toList, "10.0.0.6".toList⟩]⟩ }]

/-- The same server with its interfaces and VLANs in the order of their slots. -/
def sortedRackServer : Server :=
  { rackServer with
    networkInterfaces :=
      [{ networkInterfaceId := "1".toList
         configurationNetworkInterfaceId := "9".toList
         macAddress := []
         privateInterface := some ⟨"net".toList, [],
           [⟨"7".toList, "10.0.0.6".toList⟩, ⟨"b".toList, "10.0.0.7".toList⟩]⟩ },
       { networkInterfaceId := "2".toList
         configurationNetworkInterfaceId := "10".toList
         macAddress := []
         privateInterface := some ⟨"net".toList, "10.0.0.5".toList, []⟩ }] }

theorem rackServer_rearranged : ServerRearranged rackServer sortedRackServer := by
  refine ⟨rfl, rfl, rfl, _, List.Perm.swap _ _ [], ?_⟩
  refine List.Forall₂.cons ?_ (List.Forall₂.cons ?_ List.Forall₂.nil)
  · exact ⟨rfl, rfl, rfl, Option.Rel.some ⟨rfl, rfl, List.Perm.refl _⟩⟩
  · exact ⟨rfl, rfl, rfl, Option.Rel.some ⟨rfl, rfl, List.Perm.swap _ _ []⟩⟩

theorem rackServer_distinctIds : DistinctIds rackServer := by
  constructor
  · decide
  · intro nic hnic priv hpriv
    rcases List.mem_cons.mp hnic with rfl | hnic
    · cases hpriv
      decide
    · cases List.mem_singleton.mp hnic
      cases hpriv
      decide

/-- The same server with another address, and with a public interface. -/
def readdressedRackServer : Server :=
  { rackServer with
    networkInterfaces :=
      { networkInterfaceId := "2".toList
        configurationNetworkInterfaceId := "10".toList
        macAddress := []
        privateInterface := some ⟨"net".toList, "10.0.0.9".toList, []⟩ } ::
      rackServer.networkInterfaces.tail }

def publicRackServer : Server :=
  { rackServer with
    networkInterfaces :=
      { networkInterfaceId := "3".toList
        configurationNetworkInterfaceId := "8".toList
        macAddress := []
        privateInterface := none } :: rackServer.networkInterfaces }

/-- The server with its first interface only. -/
def plainServer : Server :=
  { rackServer with networkInterfaces := rackServer.networkInterfaces.take 1 }

theorem rackServer_readdressed :
    ServerReaddressed asciiInterpreter rackServer readdressedRackServer :=
  ⟨rfl, rfl, rfl, [], _, _, _, rfl, rfl, rfl, rfl, rfl, _, _, rfl, rfl,
    .native (fun _ => ⟨_, rfl⟩) (fun _ => ⟨_, rfl⟩)⟩

def rackPrefixes : List Str :=
  ["a".toList, "b".toList, "c".toList, "d".toList]

end Whole

end Dns
end YdbSnippets

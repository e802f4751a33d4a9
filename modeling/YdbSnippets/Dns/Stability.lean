import YdbSnippets.Dns.Slots

/-!
# What the slots do not depend on

The slots of a server stay the same when its lists are put into another order,
and when public interfaces come and go; when one address changes, the others
keep theirs.
-/

namespace YdbSnippets
namespace Dns

open Python Matching

variable {py : Interpreter}

/-! ## Another order -/

section Rearranged

/-- The VLANs of a private interface in another order. -/
structure PrivateRearranged (priv priv' : PrivateInterface) : Prop where
  nativeSubnetId : priv.nativeSubnetId = priv'.nativeSubnetId
  ipAddress : priv.ipAddress = priv'.ipAddress
  vlans : priv.vlanSubinterfaces.Perm priv'.vlanSubinterfaces

/-- The VLANs of an interface in another order. -/
structure NicRearranged (nic nic' : NetworkInterface) : Prop where
  interfaceId : nic.networkInterfaceId = nic'.networkInterfaceId
  configurationId :
    nic.configurationNetworkInterfaceId = nic'.configurationNetworkInterfaceId
  macAddress : nic.macAddress = nic'.macAddress
  privateInterface :
    Option.Rel PrivateRearranged nic.privateInterface nic'.privateInterface

/-- The interfaces of a server in another order, and the VLANs of each. -/
structure ServerRearranged (server server' : Server) : Prop where
  serverId : server.serverId = server'.serverId
  name : server.name = server'.name
  state : server.state = server'.state
  nics : Matched NicRearranged server.networkInterfaces server'.networkInterfaces

/-- The identifiers the slots are ordered by tell the interfaces of a server and
the VLANs of an interface apart. -/
structure DistinctIds (server : Server) : Prop where
  nics : (server.networkInterfaces.map fun nic =>
    (nic.configurationNetworkInterfaceId, nic.networkInterfaceId)).Nodup
  vlans : ∀ nic ∈ server.networkInterfaces, ∀ priv ∈ nic.privateInterface,
    (priv.vlanSubinterfaces.map fun vlan => vlan.taggedSubnetId).Nodup

theorem PrivateRearranged.symm
    {priv priv' : PrivateInterface}
    (h : PrivateRearranged priv priv') :
    PrivateRearranged priv' priv :=
  ⟨h.nativeSubnetId.symm, h.ipAddress.symm, h.vlans.symm⟩

theorem NicRearranged.symm
    {nic nic' : NetworkInterface}
    (h : NicRearranged nic nic') :
    NicRearranged nic' nic := by
  refine ⟨h.interfaceId.symm, h.configurationId.symm, h.macAddress.symm, ?_⟩
  have hpriv := h.privateInterface
  generalize nic.privateInterface = priv at hpriv
  generalize nic'.privateInterface = priv' at hpriv
  cases hpriv with
  | none => exact Option.Rel.none
  | some hpriv => exact Option.Rel.some hpriv.symm

theorem ServerRearranged.symm
    {server server' : Server}
    (h : ServerRearranged server server') :
    ServerRearranged server' server :=
  ⟨h.serverId.symm, h.name.symm, h.state.symm,
    h.nics.symm.imp fun _ _ _ _ hnic => hnic.symm⟩

theorem ServerRearranged.distinctIds
    {server server' : Server}
    (h : ServerRearranged server server') (hdistinct : DistinctIds server) :
    DistinctIds server' := by
  constructor
  · have hperm := map_perm_map_iff.mpr (h.nics.imp fun nic _ nic' _ hnic =>
      show (nic.configurationNetworkInterfaceId, nic.networkInterfaceId) =
        (nic'.configurationNetworkInterfaceId, nic'.networkInterfaceId) by
      rw [hnic.configurationId, hnic.interfaceId])
    exact hperm.nodup_iff.mp hdistinct.nics
  · intro nic' hnic' priv' hpriv'
    obtain ⟨nic, hnic, hrel⟩ := h.nics.exists_left hnic'
    have hpriv := hrel.privateInterface
    rw [Option.mem_def.mp hpriv'] at hpriv
    cases hopt : nic.privateInterface with
    | none =>
        rw [hopt] at hpriv
        cases hpriv
    | some priv =>
        rw [hopt] at hpriv
        cases hpriv with
        | some hpriv =>
            exact (hpriv.vlans.map _).nodup_iff.mp (hdistinct.vlans nic hnic priv hopt)

/-- The order of the VLANs does not matter. -/
theorem sortedVlans_perm
    {vlans vlans' : List VlanSubinterface}
    (hperm : vlans.Perm vlans')
    (hkeys : ∀ vlan ∈ vlans, ∃ k, naturalKey py vlan.taggedSubnetId = .ok k)
    (hnodup : (vlans.map fun vlan => vlan.taggedSubnetId).Nodup) :
    sortedVlans py vlans = sortedVlans py vlans' := by
  have hmatched : Matched Eq vlans vlans' :=
    ⟨vlans, hperm, List.forall₂_same.mpr fun _ _ => rfl⟩
  rw [← List.forall₂_eq_eq_eq]
  refine hmatched.mergeSort ?_ ?_
  · rintro vlan - vlan' - rfl
    rfl
  · refine nodup_map_of_nodup_map hnodup fun a ha b hb hk => ?_
    obtain ⟨ka, hka⟩ := hkeys a ha
    obtain ⟨kb, hkb⟩ := hkeys b hb
    rw [← naturalKey_text hka, ← naturalKey_text hkb, eq_of_keyOf_eq hk hka hkb]

theorem isInterfaceSlots_rearranged
    {serverName : Str} {nic nic' : NetworkInterface} {priv priv' : PrivateInterface}
    {slots : List Slot}
    (hnic : NicRearranged nic nic') (hpriv : PrivateRearranged priv priv')
    (hnodup : (priv.vlanSubinterfaces.map fun vlan => vlan.taggedSubnetId).Nodup)
    (h : IsInterfaceSlots py serverName nic priv slots) :
    IsInterfaceSlots py serverName nic' priv' slots := by
  obtain ⟨hkeys, address, vlanSlots, haddress, hslots, rfl⟩ := h
  have hslot : nic.slot = nic'.slot := by
    funext kind subnetId address
    unfold NetworkInterface.slot
    rw [hnic.interfaceId, hnic.configurationId, hnic.macAddress]
  refine ⟨fun vlan hvlan => hkeys vlan (hpriv.vlans.mem_iff.mpr hvlan),
    address, vlanSlots, hpriv.ipAddress ▸ haddress, ?_, ?_⟩
  · rw [← sortedVlans_perm hpriv.vlans hkeys hnodup]
    refine hslots.imp fun vlan slot => ?_
    unfold IsVlanSlot
    rw [hslot]
    exact id
  · rw [hslot, hpriv.nativeSubnetId]

theorem nicKey_congr
    {nic nic' : NetworkInterface}
    (h : NicRearranged nic nic') :
    nicKey py nic = nicKey py nic' := by
  unfold nicKey
  rw [h.interfaceId, h.configurationId]

theorem privateNics_rearranged
    {server server' : Server}
    (h : ServerRearranged server server') :
    Matched (fun nic nic' => NicRearranged nic.1 nic'.1 ∧ PrivateRearranged nic.2 nic'.2)
      (privateNics server) (privateNics server') := by
  refine h.nics.filterMap fun nic nic' hnic => ?_
  have hpriv := hnic.privateInterface
  generalize nic.privateInterface = priv at hpriv
  generalize nic'.privateInterface = priv' at hpriv
  cases hpriv with
  | none => exact Option.Rel.none
  | some hpriv => exact Option.Rel.some ⟨hnic, hpriv⟩

theorem DistinctIds.privateNics
    {server : Server}
    (h : DistinctIds server) :
    ((privateNics server).map fun nic =>
      (nic.1.configurationNetworkInterfaceId, nic.1.networkInterfaceId)).Nodup := by
  have hnics := h.nics
  unfold List.Nodup at hnics ⊢
  rw [List.pairwise_map] at hnics ⊢
  unfold Dns.privateNics
  rw [List.pairwise_filterMap]
  refine hnics.imp ?_
  intro nic nic' hne pair hpair pair' hpair'
  rw [Option.map_eq_some_iff] at hpair hpair'
  obtain ⟨priv, -, rfl⟩ := hpair
  obtain ⟨priv', -, rfl⟩ := hpair'
  exact hne

/-- The interfaces in the order of their slots correspond to each other. -/
theorem sortedNics_rearranged
    {server server' : Server}
    (h : ServerRearranged server server') (hdistinct : DistinctIds server)
    (hkeys : ∀ nic ∈ privateNics server, ∃ k, nicKey py nic.1 = .ok k) :
    List.Forall₂ (fun nic nic' => NicRearranged nic.1 nic'.1 ∧ PrivateRearranged nic.2 nic'.2)
      (sortedNics py (privateNics server)) (sortedNics py (privateNics server')) := by
  refine (privateNics_rearranged h).mergeSort ?_ ?_
  · intro nic _ nic' _ hnic
    exact keyOf_congr (nicKey_congr hnic.1)
  · refine nodup_map_of_nodup_map hdistinct.privateNics fun a ha b hb hk => ?_
    obtain ⟨ka, hka⟩ := hkeys a ha
    obtain ⟨kb, hkb⟩ := hkeys b hb
    have heq := eq_of_keyOf_eq hk hka hkb
    rw [← (nicKey_ids hka).1, ← (nicKey_ids hka).2, heq, (nicKey_ids hkb).1, (nicKey_ids hkb).2]

theorem mem_privateNics
    {server : Server} {nic : NetworkInterface × PrivateInterface} :
    nic ∈ privateNics server ↔
      nic.1 ∈ server.networkInterfaces ∧ nic.2 ∈ nic.1.privateInterface := by
  obtain ⟨nic, priv⟩ := nic
  simp only [privateNics, List.mem_filterMap, Option.map_eq_some_iff, Prod.mk.injEq,
    Option.mem_def]
  constructor
  · rintro ⟨nic', hnic', priv', hpriv', rfl, rfl⟩
    exact ⟨hnic', hpriv'⟩
  · rintro ⟨hnic, hpriv⟩
    exact ⟨nic, hnic, priv, hpriv, rfl, rfl⟩

/-- A server has the same slots whatever the order of its lists. -/
theorem isServerSlots_rearranged
    {server server' : Server} {slots : List Slot}
    (h : ServerRearranged server server') (hdistinct : DistinctIds server)
    (hslots : IsServerSlots py server slots) :
    IsServerSlots py server' slots := by
  obtain ⟨hkeys, blocks, hblocks, rfl⟩ := hslots
  have hshown : server.shown = server'.shown := by
    unfold Server.shown
    rw [h.name, h.serverId]
  refine ⟨?_, blocks, ?_, rfl⟩
  · intro nic' hnic'
    obtain ⟨nic, hnic, hrel⟩ := (privateNics_rearranged h).exists_left hnic'
    obtain ⟨k, hk⟩ := hkeys nic hnic
    exact ⟨k, nicKey_congr hrel.1 ▸ hk⟩
  · refine forall₂_of_forall₂ (sortedNics_rearranged h hdistinct hkeys) hblocks ?_
    rintro nic hnic nic' block ⟨hrel, hpriv⟩ hblock
    obtain ⟨hmem, hnicPriv⟩ := mem_privateNics.mp ((List.mergeSort_perm _ _).mem_iff.mp hnic)
    rw [← hshown]
    exact isInterfaceSlots_rearranged hrel hpriv (hdistinct.vlans _ hmem _ hnicPriv) hblock

end Rearranged

/-! ## Another address -/

section Readdressed

/-- An address from the private ranges, or none. -/
def AcceptedAddress (py : Interpreter) (value : Str) : Prop :=
  ∀ serverName, ∃ address, canonicalPrivateIp py value serverName = .ok address

/-- The same VLAN under another address. -/
structure VlanReaddressed (py : Interpreter) (vlan vlan' : VlanSubinterface) : Prop where
  taggedSubnetId : vlan.taggedSubnetId = vlan'.taggedSubnetId
  before : AcceptedAddress py vlan.ipAddress
  after : AcceptedAddress py vlan'.ipAddress

/-- A private interface with one address changed: its own, or that of a VLAN. -/
inductive PrivateReaddressed (py : Interpreter) : PrivateInterface → PrivateInterface → Prop
  | native {nativeSubnetId address address' : Str} {vlans : List VlanSubinterface}
      (before : AcceptedAddress py address) (after : AcceptedAddress py address') :
      PrivateReaddressed py ⟨nativeSubnetId, address, vlans⟩ ⟨nativeSubnetId, address', vlans⟩
  | vlan {nativeSubnetId address : Str} {vlans vlans' : List VlanSubinterface}
      (changed : Replaced (VlanReaddressed py) vlans vlans') :
      PrivateReaddressed py ⟨nativeSubnetId, address, vlans⟩ ⟨nativeSubnetId, address, vlans'⟩

/-- An interface with one private address changed. -/
structure NicReaddressed (py : Interpreter) (nic nic' : NetworkInterface) : Prop where
  interfaceId : nic.networkInterfaceId = nic'.networkInterfaceId
  configurationId :
    nic.configurationNetworkInterfaceId = nic'.configurationNetworkInterfaceId
  macAddress : nic.macAddress = nic'.macAddress
  privateInterface : ∃ priv priv', nic.privateInterface = some priv ∧
    nic'.privateInterface = some priv' ∧ PrivateReaddressed py priv priv'

/-- A server with one private address changed. -/
structure ServerReaddressed (py : Interpreter) (server server' : Server) : Prop where
  serverId : server.serverId = server'.serverId
  name : server.name = server'.name
  state : server.state = server'.state
  nics : Replaced (NicReaddressed py) server.networkInterfaces server'.networkInterfaces

/-- The same slot, whatever its address. -/
def SameSlot (slot slot' : Slot) : Prop :=
  slot' = { slot with address := slot'.address }

theorem isInterfaceSlots_readdressed
    {serverName : Str} {nic nic' : NetworkInterface} {priv priv' : PrivateInterface}
    {slots : List Slot}
    (hnic : nic.slot = nic'.slot) (hpriv : PrivateReaddressed py priv priv')
    (h : IsInterfaceSlots py serverName nic priv slots) :
    ∃ slots', IsInterfaceSlots py serverName nic' priv' slots' ∧
      Replaced SameSlot slots slots' := by
  obtain ⟨hkeys, address, vlanSlots, haddress, hslots, rfl⟩ := h
  have hvlan : IsVlanSlot py serverName nic = IsVlanSlot py serverName nic' := by
    unfold IsVlanSlot
    rw [hnic]
  rw [hvlan] at hslots
  cases hpriv with
  | @native nativeSubnetId _ address' vlans _ after =>
      obtain ⟨address', haddress'⟩ := after serverName
      refine ⟨nic'.slot .native nativeSubnetId address' :: vlanSlots,
        ⟨hkeys, address', vlanSlots, haddress', hslots, rfl⟩, [], _, _, vlanSlots, rfl, rfl, ?_⟩
      rw [hnic]
      rfl
  | @vlan nativeSubnetId _ vlans vlans' changed =>
      have hsorted : Replaced (VlanReaddressed py) (sortedVlans py vlans)
          (sortedVlans py vlans') := by
        refine changed.mergeSort fun vlan _ vlan' _ hvlan => ?_
        refine keyOf_congr ?_
        rw [hvlan.taggedSubnetId]
      obtain ⟨vlanSlots', hslots', hreplaced⟩ := hsorted.forall₂ hslots
        (S := SameSlot) (by
          rintro vlan vlan' hvlan slot ⟨a, -, rfl⟩
          obtain ⟨a', ha'⟩ := hvlan.after serverName
          exact ⟨_, ⟨a', ha', rfl⟩, by rw [hvlan.taggedSubnetId]; rfl⟩)
      refine ⟨nic'.slot .native nativeSubnetId address :: vlanSlots',
        ⟨?_, address, vlanSlots', haddress, hslots', rfl⟩, ?_⟩
      · refine changed.forall_mem hkeys ?_
        rintro vlan vlan' hvlan ⟨k, hk⟩
        exact ⟨k, hvlan.taggedSubnetId ▸ hk⟩
      · rw [hnic]
        exact hreplaced.append_left [_]

theorem NicReaddressed.slot_eq
    {nic nic' : NetworkInterface}
    (h : NicReaddressed py nic nic') :
    nic.slot = nic'.slot := by
  funext kind subnetId address
  unfold NetworkInterface.slot
  rw [h.interfaceId, h.configurationId, h.macAddress]

theorem privateNics_readdressed
    {server server' : Server}
    (h : ServerReaddressed py server server') :
    Replaced (fun nic nic' => NicReaddressed py nic.1 nic'.1 ∧
        PrivateReaddressed py nic.2 nic'.2)
      (privateNics server) (privateNics server') := by
  refine h.nics.filterMap fun nic nic' hnic => ?_
  obtain ⟨priv, priv', hpriv, hpriv', hchange⟩ := hnic.privateInterface
  refine ⟨(nic, priv), (nic', priv'), ?_, ?_, hnic, hchange⟩
  · rw [hpriv, Option.map_some]
  · rw [hpriv', Option.map_some]

/-- One slot of the server gets another address, all others stay. -/
theorem isServerSlots_readdressed
    {server server' : Server} {slots : List Slot}
    (h : ServerReaddressed py server server') (hslots : IsServerSlots py server slots) :
    ∃ slots', IsServerSlots py server' slots' ∧ Replaced SameSlot slots slots' := by
  obtain ⟨hkeys, blocks, hblocks, rfl⟩ := hslots
  have hshown : server.shown = server'.shown := by
    unfold Server.shown
    rw [h.name, h.serverId]
  have hnicKey : ∀ nic nic' : NetworkInterface × PrivateInterface,
      NicReaddressed py nic.1 nic'.1 ∧ PrivateReaddressed py nic.2 nic'.2 →
        nicKey py nic.1 = nicKey py nic'.1 := by
    rintro nic nic' ⟨hnic, -⟩
    unfold nicKey
    rw [hnic.interfaceId, hnic.configurationId]
  have hprivate := privateNics_readdressed h
  have hsorted : Replaced _ (sortedNics py (privateNics server))
      (sortedNics py (privateNics server')) :=
    hprivate.mergeSort fun nic _ nic' _ hnic => keyOf_congr (hnicKey nic nic' hnic)
  obtain ⟨blocks', hblocks', hreplaced⟩ := hsorted.forall₂ hblocks
    (S := Replaced SameSlot) fun nic nic' hnic slots hslots =>
      isInterfaceSlots_readdressed hnic.1.slot_eq hnic.2 hslots
  refine ⟨blocks'.flatten, ⟨?_, blocks', hshown ▸ hblocks', rfl⟩, hreplaced.flatten⟩
  refine hprivate.forall_mem hkeys ?_
  rintro nic nic' hnic ⟨k, hk⟩
  exact ⟨k, hnicKey nic nic' hnic ▸ hk⟩

theorem PrivateReaddressed.symm
    {priv priv' : PrivateInterface}
    (h : PrivateReaddressed py priv priv') :
    PrivateReaddressed py priv' priv := by
  cases h with
  | native before after => exact .native after before
  | vlan changed =>
      exact .vlan (changed.symm.imp fun _ _ _ _ h => ⟨h.taggedSubnetId.symm, h.after, h.before⟩)

theorem ServerReaddressed.symm
    {server server' : Server}
    (h : ServerReaddressed py server server') :
    ServerReaddressed py server' server := by
  refine ⟨h.serverId.symm, h.name.symm, h.state.symm, h.nics.symm.imp fun _ _ _ _ hnic => ?_⟩
  obtain ⟨priv, priv', hpriv, hpriv', hchange⟩ := hnic.privateInterface
  exact ⟨hnic.interfaceId.symm, hnic.configurationId.symm, hnic.macAddress.symm,
    priv', priv, hpriv', hpriv, hchange.symm⟩

end Readdressed

/-! ## Public interfaces -/

section PublicEdited

/-- A server after public interfaces were added, removed or changed. -/
structure PublicEdited (server server' : Server) : Prop where
  serverId : server.serverId = server'.serverId
  name : server.name = server'.name
  state : server.state = server'.state
  nics : server.networkInterfaces.filter (fun nic => nic.privateInterface.isSome) =
    server'.networkInterfaces.filter (fun nic => nic.privateInterface.isSome)

/-- Public interfaces have no slots. -/
theorem privateSlots_publicEdited
    {server server' : Server}
    (h : PublicEdited server server') :
    privateSlots py server = privateSlots py server' := by
  have hfilter : ∀ server : Server, privateNics server =
      (server.networkInterfaces.filter fun nic => nic.privateInterface.isSome).filterMap
        fun nic => nic.privateInterface.map fun priv => (nic, priv) := by
    intro server
    rw [List.filterMap_filter]
    refine List.filterMap_congr fun nic _ => ?_
    cases nic.privateInterface with
    | none => rfl
    | some priv => rfl
  have hnics : privateNics server = privateNics server' := by
    rw [hfilter, hfilter, h.nics]
  have hbody : ∀ server : Server, privateSlots py server = (do
      let sorted ← sortedByKey (fun nic => nicKey py nic.1) (privateNics server)
      let blocks ← sorted.mapM fun nic => interfaceSlots py server.shown nic.1 nic.2
      return blocks.flatten) := fun _ => rfl
  have hshown : server.shown = server'.shown := by
    unfold Server.shown
    rw [h.name, h.serverId]
  rw [hbody, hbody, hnics, hshown]

end PublicEdited

/-! ## Every private address has a slot -/

section Declared

/-- The slots of an interface with the addresses as reported. -/
def NetworkInterface.declared (nic : NetworkInterface) (priv : PrivateInterface) : List Slot :=
  nic.slot .native priv.nativeSubnetId priv.ipAddress ::
    priv.vlanSubinterfaces.map fun vlan => nic.slot .vlan vlan.taggedSubnetId vlan.ipAddress

/-- The slots of a server in the order in which the API lists them, with the
addresses as reported. -/
def declaredSlots (server : Server) : List Slot :=
  (privateNics server).flatMap fun nic => nic.1.declared nic.2

/-- `slot` is a declared slot with its address in canonical form. -/
def Canonical (py : Interpreter) (serverName : Str) (declared slot : Slot) : Prop :=
  SameSlot declared slot ∧
    canonicalPrivateIp py declared.address serverName = .ok slot.address

theorem isInterfaceSlots_declared
    {serverName : Str} {nic : NetworkInterface} {priv : PrivateInterface}
    {slots : List Slot}
    (h : IsInterfaceSlots py serverName nic priv slots) :
    Matched (Canonical py serverName) (nic.declared priv) slots := by
  obtain ⟨-, address, vlanSlots, haddress, hslots, rfl⟩ := h
  have hperm := Sorting.sortedBy_perm (keyOf fun vlan => naturalKey py vlan.taggedSubnetId)
    priv.vlanSubinterfaces
  refine Matched.perm_left ((hperm.map _).cons _) ⟨_, List.Perm.refl _, ?_⟩
  refine List.Forall₂.cons ⟨rfl, haddress⟩ ?_
  rw [List.forall₂_map_left_iff]
  refine hslots.imp fun vlan slot hslot => ?_
  obtain ⟨a, ha, rfl⟩ := hslot
  exact ⟨rfl, ha⟩

/-- Every declared slot of a server is one of its slots, and nothing else is. -/
theorem isServerSlots_declared
    {server : Server} {slots : List Slot}
    (h : IsServerSlots py server slots) :
    Matched (Canonical py server.shown) (declaredSlots server) slots := by
  obtain ⟨-, blocks, hblocks, rfl⟩ := h
  have hperm := Sorting.sortedBy_perm (keyOf fun nic => nicKey py nic.1) (privateNics server)
  refine Matched.perm_left (hperm.flatMap_right _) ?_
  refine Matched.flatten ?_
  rw [List.forall₂_map_left_iff]
  exact hblocks.imp fun nic slots hslots => isInterfaceSlots_declared hslots

end Declared

end Dns
end YdbSnippets

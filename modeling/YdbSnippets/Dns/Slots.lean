import YdbSnippets.Dns.Inventory
import YdbSnippets.Lists.Replaced

/-!
# The order of the slots

`private_slots` numbers the private addresses of a server.  The numbers come
from the identifiers alone: neither the order of the lists nor the addresses
play a part in them.
-/

namespace YdbSnippets
namespace Dns

open Python Matching

/-! ## Sorting by keys that may fail -/

section Keys

variable {α κ : Type} [Nonempty κ]

/-- The key of an item; any value where computing the key fails. -/
noncomputable def keyOf
    (key : α → Except RegistrationError κ) (item : α) : κ :=
  match key item with
  | .ok k => k
  | .error _ => Classical.arbitrary κ

theorem keyOf_of_ok
    {key : α → Except RegistrationError κ} {item : α} {k : κ}
    (h : key item = .ok k) :
    keyOf key item = k := by
  unfold keyOf
  rw [h]

theorem keyOf_congr
    {key : α → Except RegistrationError κ} {a b : α}
    (h : key a = key b) :
    keyOf key a = keyOf key b := by
  unfold keyOf
  rw [h]

theorem eq_of_keyOf_eq
    {key : α → Except RegistrationError κ} {a b : α} {k k' : κ}
    (h : keyOf key a = keyOf key b) (ha : key a = .ok k) (hb : key b = .ok k') :
    k = k' := by
  rw [← keyOf_of_ok ha, ← keyOf_of_ok hb, h]

end Keys

section Sorted

variable {α κ : Type} [LinearOrder κ] [Nonempty κ]

/-- Sorting succeeds if and only if every key can be computed. -/
theorem sortedByKey_ok_iff
    {key : α → Except RegistrationError κ} {items out : List α} :
    sortedByKey key items = .ok out ↔
      (∀ item ∈ items, ∃ k, key item = .ok k) ∧
        out = Sorting.sortedBy (keyOf key) items := by
  have hkeyed : ∀ item (pair : κ × α),
      (do return (← key item, item) : Except RegistrationError (κ × α)) = .ok pair ↔
        key item = .ok pair.1 ∧ pair.2 = item := by
    rintro item ⟨k, a⟩
    rw [bind_ok_iff]
    constructor
    · rintro ⟨k', hkey, heq⟩
      cases heq
      exact ⟨hkey, rfl⟩
    · rintro ⟨hkey, rfl⟩
      exact ⟨k, hkey, rfl⟩
  have hmapped : ∀ pairs : List (κ × α),
      items.mapM (fun item => (do return (← key item, item) :
          Except RegistrationError (κ × α))) = .ok pairs ↔
        (∀ item ∈ items, ∃ k, key item = .ok k) ∧
          pairs = items.map fun item => (keyOf key item, item) := by
    intro pairs
    rw [mapM_ok_iff]
    simp only [hkeyed]
    constructor
    · intro h
      induction h with
      | nil =>
          refine ⟨?_, rfl⟩
          intro item hitem
          cases hitem
      | @cons item pair _ _ hpair _ ih =>
          obtain ⟨hall, hrest⟩ := ih
          refine ⟨List.forall_mem_cons.mpr ⟨⟨pair.1, hpair.1⟩, hall⟩, ?_⟩
          rw [List.map_cons, ← hrest, keyOf_of_ok hpair.1, ← hpair.2]
    · rintro ⟨hall, rfl⟩
      rw [List.forall₂_map_right_iff, List.forall₂_same]
      intro item hitem
      obtain ⟨k, hk⟩ := hall item hitem
      exact ⟨by rw [hk, keyOf_of_ok hk], rfl⟩
  have hsorted : (Sorting.sortedBy Prod.fst (items.map fun item => (keyOf key item, item))).map
      Prod.snd = Sorting.sortedBy (keyOf key) items := by
    unfold Sorting.sortedBy
    rw [← List.map_mergeSort (r := fun a b => decide (keyOf key a ≤ keyOf key b))
      (fun _ _ _ _ => rfl), List.map_map]
    exact List.map_id _
  unfold sortedByKey
  rw [bind_ok_iff]
  constructor
  · rintro ⟨pairs, hpairs, hout⟩
    obtain ⟨hall, rfl⟩ := (hmapped pairs).mp hpairs
    exact ⟨hall, (Except.ok.inj hout).symm.trans hsorted⟩
  · rintro ⟨hall, rfl⟩
    exact ⟨_, (hmapped _).mpr ⟨hall, rfl⟩, congrArg Except.ok hsorted⟩

end Sorted

/-! ## What the slots are computed from -/

section Spec

variable {py : Interpreter}

/-- A key holds the text it was computed from. -/
theorem naturalKey_text
    {text : Str} {k : Nat ×ₗ Nat ×ₗ Str}
    (h : naturalKey py text = .ok k) :
    (ofLex (ofLex k).2).2 = text := by
  unfold naturalKey at h
  split at h
  · cases hn : intOfDigits py text with
    | error e =>
        rw [hn] at h
        cases h
    | ok n =>
        rw [hn] at h
        cases h
        rfl
  · cases h
    rfl

/-- The sort key of a network interface. -/
def nicKey
    (py : Interpreter) (nic : NetworkInterface) :
    Except RegistrationError ((Nat ×ₗ Nat ×ₗ Str) ×ₗ (Nat ×ₗ Nat ×ₗ Str)) := do
  let configuration ← naturalKey py nic.configurationNetworkInterfaceId
  let interface ← naturalKey py nic.networkInterfaceId
  return toLex (configuration, interface)

theorem nicKey_ids
    {nic : NetworkInterface} {k : (Nat ×ₗ Nat ×ₗ Str) ×ₗ (Nat ×ₗ Nat ×ₗ Str)}
    (h : nicKey py nic = .ok k) :
    (ofLex (ofLex (ofLex k).1).2).2 = nic.configurationNetworkInterfaceId ∧
      (ofLex (ofLex (ofLex k).2).2).2 = nic.networkInterfaceId := by
  obtain ⟨configuration, hconfiguration, h⟩ := bind_ok_iff.mp h
  obtain ⟨interface, hinterface, h⟩ := bind_ok_iff.mp h
  cases h
  exact ⟨naturalKey_text hconfiguration, naturalKey_text hinterface⟩

/-- The slot of an interface for one of its subnets. -/
def NetworkInterface.slot
    (nic : NetworkInterface) (kind : SlotKind) (subnetId address : Str) : Slot where
  interfaceId := nic.networkInterfaceId
  configurationId := nic.configurationNetworkInterfaceId
  macAddress := nic.macAddress
  kind := kind
  subnetId := subnetId
  address := address

def vlanSlot
    (py : Interpreter) (serverName : Str) (nic : NetworkInterface)
    (vlan : VlanSubinterface) : Except RegistrationError Slot := do
  return nic.slot .vlan vlan.taggedSubnetId
    (← canonicalPrivateIp py vlan.ipAddress serverName)

/-- `slot` is the slot of a VLAN. -/
def IsVlanSlot
    (py : Interpreter) (serverName : Str) (nic : NetworkInterface)
    (vlan : VlanSubinterface) (slot : Slot) : Prop :=
  ∃ address, canonicalPrivateIp py vlan.ipAddress serverName = .ok address ∧
    slot = nic.slot .vlan vlan.taggedSubnetId address

/-- The VLANs in the order of their slots. -/
noncomputable def sortedVlans
    (py : Interpreter) (vlans : List VlanSubinterface) : List VlanSubinterface :=
  Sorting.sortedBy (keyOf fun vlan => naturalKey py vlan.taggedSubnetId) vlans

/-- `slots` are the slots of a private interface. -/
structure IsInterfaceSlots
    (py : Interpreter) (serverName : Str) (nic : NetworkInterface)
    (priv : PrivateInterface) (slots : List Slot) : Prop where
  keys : ∀ vlan ∈ priv.vlanSubinterfaces, ∃ k, naturalKey py vlan.taggedSubnetId = .ok k
  slots_eq : ∃ address vlanSlots,
    canonicalPrivateIp py priv.ipAddress serverName = .ok address ∧
      List.Forall₂ (IsVlanSlot py serverName nic)
        (sortedVlans py priv.vlanSubinterfaces) vlanSlots ∧
      slots = nic.slot .native priv.nativeSubnetId address :: vlanSlots

theorem vlanSlot_ok_iff
    {serverName : Str} {nic : NetworkInterface} {vlan : VlanSubinterface} {slot : Slot} :
    vlanSlot py serverName nic vlan = .ok slot ↔ IsVlanSlot py serverName nic vlan slot := by
  unfold vlanSlot IsVlanSlot
  rw [bind_ok_iff]
  refine exists_congr fun address => and_congr_right fun _ => ?_
  constructor
  · intro h
    exact (Except.ok.inj h).symm
  · rintro rfl
    rfl

theorem interfaceSlots_ok_iff
    {serverName : Str} {nic : NetworkInterface} {priv : PrivateInterface}
    {slots : List Slot} :
    interfaceSlots py serverName nic priv = .ok slots ↔
      IsInterfaceSlots py serverName nic priv slots := by
  have hslots : ∀ vlans slots, vlans.mapM (vlanSlot py serverName nic) = .ok slots ↔
      List.Forall₂ (IsVlanSlot py serverName nic) vlans slots := by
    intro vlans slots
    rw [mapM_ok_iff]
    simp only [vlanSlot_ok_iff]
  have hbody : interfaceSlots py serverName nic priv = (do
      let address ← canonicalPrivateIp py priv.ipAddress serverName
      let vlans ← sortedByKey (fun vlan => naturalKey py vlan.taggedSubnetId)
        priv.vlanSubinterfaces
      let vlanSlots ← vlans.mapM (vlanSlot py serverName nic)
      return nic.slot .native priv.nativeSubnetId address :: vlanSlots) := rfl
  rw [hbody]
  constructor
  · intro h
    obtain ⟨address, haddress, h⟩ := bind_ok_iff.mp h
    obtain ⟨vlans, hvlans, h⟩ := bind_ok_iff.mp h
    obtain ⟨hkeys, rfl⟩ := sortedByKey_ok_iff.mp hvlans
    obtain ⟨vlanSlots, hvlanSlots, h⟩ := bind_ok_iff.mp h
    exact ⟨hkeys, address, vlanSlots, haddress, (hslots _ _).mp hvlanSlots,
      (Except.ok.inj h).symm⟩
  · rintro ⟨hkeys, address, vlanSlots, haddress, hvlanSlots, rfl⟩
    exact bind_ok_iff.mpr ⟨address, haddress,
      bind_ok_iff.mpr ⟨_, sortedByKey_ok_iff.mpr ⟨hkeys, rfl⟩,
      bind_ok_iff.mpr ⟨vlanSlots, (hslots _ _).mpr hvlanSlots, rfl⟩⟩⟩

/-- The private interfaces of a server. -/
def privateNics (server : Server) : List (NetworkInterface × PrivateInterface) :=
  server.networkInterfaces.filterMap fun nic => nic.privateInterface.map fun priv => (nic, priv)

/-- The name `private_slots` prints in its errors. -/
def Server.shown (server : Server) : Str :=
  if server.name.isEmpty then server.serverId else server.name

/-- The private interfaces in the order of their slots. -/
noncomputable def sortedNics
    (py : Interpreter) (nics : List (NetworkInterface × PrivateInterface)) :
    List (NetworkInterface × PrivateInterface) :=
  Sorting.sortedBy (keyOf fun nic => nicKey py nic.1) nics

/-- `slots` are the slots of a server. -/
structure IsServerSlots
    (py : Interpreter) (server : Server) (slots : List Slot) : Prop where
  keys : ∀ nic ∈ privateNics server, ∃ k, nicKey py nic.1 = .ok k
  slots_eq : ∃ blocks,
    List.Forall₂ (fun nic => IsInterfaceSlots py server.shown nic.1 nic.2)
        (sortedNics py (privateNics server)) blocks ∧
      slots = blocks.flatten

theorem privateSlots_ok_iff
    {server : Server} {slots : List Slot} :
    privateSlots py server = .ok slots ↔ IsServerSlots py server slots := by
  have hblocks : ∀ nics blocks,
      nics.mapM (fun nic : NetworkInterface × PrivateInterface =>
          interfaceSlots py server.shown nic.1 nic.2) = .ok blocks ↔
        List.Forall₂ (fun nic => IsInterfaceSlots py server.shown nic.1 nic.2) nics blocks := by
    intro nics blocks
    rw [mapM_ok_iff]
    simp only [interfaceSlots_ok_iff]
  have hbody : privateSlots py server = (do
      let sorted ← sortedByKey (fun nic => nicKey py nic.1) (privateNics server)
      let blocks ← sorted.mapM fun nic => interfaceSlots py server.shown nic.1 nic.2
      return blocks.flatten) := rfl
  rw [hbody]
  constructor
  · intro h
    obtain ⟨sorted, hsorted, h⟩ := bind_ok_iff.mp h
    obtain ⟨hkeys, rfl⟩ := sortedByKey_ok_iff.mp hsorted
    obtain ⟨blocks, hmapped, h⟩ := bind_ok_iff.mp h
    exact ⟨hkeys, blocks, (hblocks _ _).mp hmapped, (Except.ok.inj h).symm⟩
  · rintro ⟨hkeys, blocks, hmapped, rfl⟩
    exact bind_ok_iff.mpr ⟨_, sortedByKey_ok_iff.mpr ⟨hkeys, rfl⟩,
      bind_ok_iff.mpr ⟨blocks, (hblocks _ _).mpr hmapped, rfl⟩⟩

end Spec
end Dns
end YdbSnippets

import YdbSnippets.Dns.Names
import YdbSnippets.Lists.Sorting
import Mathlib.Data.Finmap
import Mathlib.Data.Char
import Mathlib.Data.List.Lex
import Mathlib.Data.Prod.Lex

/-!
# The records the servers call for

`private_slots` and `build_inventory`: the private interfaces of every server
in a fixed order, and the A record each of them should have.
-/

namespace YdbSnippets
namespace Dns

open Python

/-- `VlanSubinterface` -/
structure VlanSubinterface where
  taggedSubnetId : Str
  ipAddress : Str
deriving DecidableEq, Repr

/-- `PrivateInterface` -/
structure PrivateInterface where
  nativeSubnetId : Str
  ipAddress : Str
  vlanSubinterfaces : List VlanSubinterface
deriving DecidableEq, Repr

/-- `NetworkInterface` -/
structure NetworkInterface where
  networkInterfaceId : Str
  configurationNetworkInterfaceId : Str
  macAddress : Str
  privateInterface : Option PrivateInterface
deriving DecidableEq, Repr

/-- `Server` -/
structure Server where
  serverId : Str
  name : Str
  state : Int
  networkInterfaces : List NetworkInterface
deriving DecidableEq, Repr

inductive SlotKind
  | native
  | vlan
deriving DecidableEq, Repr

/-- `Slot` -/
structure Slot where
  interfaceId : Str
  configurationId : Str
  macAddress : Str
  kind : SlotKind
  subnetId : Str
  address : Str
deriving DecidableEq, Repr

/-- `DesiredRecord` -/
structure DesiredRecord where
  fqdn : Str
  address : Str
  serverName : Str
  serverId : Str
deriving DecidableEq, Repr

/-- The notes of `build_inventory`, with the values they print. -/
inductive Note
  | skipped (server : Str)
  | noInterfaces (label : Str)
  | noAddress (label : Str) (slot : Slot) (fqdn : Str)
  | published (label : Str) (slot : Slot) (fqdn : Str)
deriving DecidableEq, Repr

/-- `Inventory` -/
structure Inventory where
  desired : Finmap (fun _ : Str => DesiredRecord)
  serverNames : Finset Str
  notes : List Note

section Slots

/-- `int(text)` for a text that `isdigit` accepts. -/
def intOfDigits (py : Interpreter) (text : Str) : Except RegistrationError Nat :=
  if 4300 < text.length then
    .error (.notInteger text)
  else
    match text.mapM py.decimal with
    | some digits => .ok (digits.foldl (fun n d => 10 * n + d) 0)
    | none => .error (.notInteger text)

/-- `_natural_key`: a number comes before every other text. -/
def naturalKey
    (py : Interpreter) (text : Str) : Except RegistrationError (Nat ×ₗ Nat ×ₗ Str) :=
  if !text.isEmpty && text.all py.isDigit then do
    let n ← intOfDigits py text
    return toLex (0, toLex (n, text))
  else
    return toLex (1, toLex (0, text))

/-- `sorted(items, key=key)`: the keys are computed first, and items with equal
keys keep their order. -/
def sortedByKey
    {α κ : Type} [LinearOrder κ]
    (key : α → Except RegistrationError κ) (items : List α) :
    Except RegistrationError (List α) := do
  let keyed ← items.mapM (fun item => do return (← key item, item))
  return (Sorting.sortedBy Prod.fst keyed).map Prod.snd

/-- One part of a dotted IPv4 address: one to three digits without a leading
zero, at most 255. -/
def parseOctet (part : Str) : Option Nat :=
  if part.isEmpty || !part.all Char.isDigit || 3 < part.length ||
      (1 < part.length && part.head? == some '0') then
    none
  else
    let value := part.foldl (fun n c => 10 * n + (c.toNat - 48)) 0
    if 255 < value then none else some value

/-- `ipaddress.IPv4Address` -/
def parseIPv4 (text : Str) : Option (Nat × Nat × Nat × Nat) :=
  match (text.splitOn '.').mapM parseOctet with
  | some [a, b, c, d] => some (a, b, c, d)
  | _ => none

/-- The networks of `_RFC1918`. -/
def isPrivate : Nat × Nat × Nat × Nat → Bool
  | (a, b, _, _) =>
      a == 10 || (a == 172 && 16 ≤ b && b ≤ 31) || (a == 192 && b == 168)

/-- `str` of an IPv4 address. -/
def showIPv4 : Nat × Nat × Nat × Nat → Str
  | (a, b, c, d) =>
      Nat.toDigits 10 a ++ '.' :: Nat.toDigits 10 b ++ '.' :: Nat.toDigits 10 c ++
        '.' :: Nat.toDigits 10 d

/-- `_canonical_private_ip` -/
def canonicalPrivateIp
    (py : Interpreter) (value serverName : Str) : Except RegistrationError Str :=
  let text := strip value
  if text.isEmpty then
    .ok []
  else
    match parseIPv4 text with
    | some parsed =>
        if isPrivate parsed then .ok (showIPv4 parsed)
        else .error (.publicAddress serverName text)
    | none =>
        if py.isIPv6 text then .error (.publicAddress serverName text)
        else .error (.badAddress serverName text)

/-- The slots of one private interface: the native subnet, then the VLANs. -/
def interfaceSlots
    (py : Interpreter) (serverName : Str)
    (nic : NetworkInterface) (priv : PrivateInterface) :
    Except RegistrationError (List Slot) := do
  let slot (kind : SlotKind) (subnetId address : Str) : Slot :=
    { interfaceId := nic.networkInterfaceId
      configurationId := nic.configurationNetworkInterfaceId
      macAddress := nic.macAddress
      kind := kind
      subnetId := subnetId
      address := address }
  let native := slot .native priv.nativeSubnetId
    (← canonicalPrivateIp py priv.ipAddress serverName)
  let vlans ← sortedByKey (fun vlan => naturalKey py vlan.taggedSubnetId)
    priv.vlanSubinterfaces
  let vlanSlots ← vlans.mapM (fun vlan => do
    return slot .vlan vlan.taggedSubnetId
      (← canonicalPrivateIp py vlan.ipAddress serverName))
  return native :: vlanSlots

/-- `private_slots` -/
def privateSlots
    (py : Interpreter) (server : Server) : Except RegistrationError (List Slot) := do
  let serverName := if server.name.isEmpty then server.serverId else server.name
  let privateNics := server.networkInterfaces.filterMap
    (fun nic => nic.privateInterface.map (fun priv => (nic, priv)))
  let sorted ← sortedByKey
    (fun nic => do
      let configuration ← naturalKey py nic.1.configurationNetworkInterfaceId
      let interface ← naturalKey py nic.1.networkInterfaceId
      return (toLex (configuration, interface) :
        (Nat ×ₗ Nat ×ₗ Str) ×ₗ (Nat ×ₗ Nat ×ₗ Str)))
    privateNics
  let slots ← sorted.mapM (fun nic => interfaceSlots py serverName nic.1 nic.2)
  return slots.flatten

end Slots

section Build

/-- `DNS_NAME_MAX` -/
def dnsNameMax : Nat := 254

/-- `_server_label` -/
def serverLabel (py : Interpreter) (server : Server) : Except RegistrationError Str :=
  let raw := strip server.name
  let label := py.lower raw
  if isDnsLabel label then .ok label
  else .error (.badServerName raw server.serverId)

/-- The inner loop of `build_inventory`: one slot after another. -/
def publishSlots
    (label serverId zone : Str) :
    List (Str × Slot) → Inventory → Except RegistrationError Inventory
  | [], inv => .ok inv
  | (pre, slot) :: rest, inv =>
      let fqdn := serverName label pre zone
      if dnsNameMax < fqdn.length then
        .error (.longName fqdn)
      else if slot.address.isEmpty then
        publishSlots label serverId zone rest
          { inv with notes := inv.notes ++ [.noAddress label slot fqdn] }
      else
        publishSlots label serverId zone rest
          { inv with
            desired := inv.desired.insert fqdn
              { fqdn := fqdn
                address := slot.address
                serverName := label
                serverId := serverId }
            notes := inv.notes ++ [.published label slot fqdn] }

/-- The outer loop of `build_inventory`; `deleting` is the number of the state
`Server.DELETING`. -/
def addServers
    (py : Interpreter) (deleting : Int) (prefixes : List Str) (zone : Str) :
    List Server → Inventory → Except RegistrationError Inventory
  | [], inv => .ok inv
  | server :: rest, inv =>
      if server.state = deleting then
        let shown := if server.name.isEmpty then server.serverId else server.name
        addServers py deleting prefixes zone rest
          { inv with notes := inv.notes ++ [.skipped shown] }
      else do
        let label ← serverLabel py server
        if label ∈ inv.serverNames then
          throw (.repeatedServer label)
        else
          let inv := { inv with serverNames := insert label inv.serverNames }
          let slots ← privateSlots py server
          if prefixes.length < slots.length then
            throw (.tooManySlots label slots.length prefixes)
          else if slots.isEmpty then
            addServers py deleting prefixes zone rest
              { inv with notes := inv.notes ++ [.noInterfaces label] }
          else do
            let inv ← publishSlots label server.serverId zone (prefixes.zip slots) inv
            addServers py deleting prefixes zone rest inv

/-- `build_inventory` -/
def buildInventory
    (py : Interpreter) (deleting : Int)
    (servers : List Server) (prefixes : List Str) (zone : Str) :
    Except RegistrationError Inventory := do
  let zone ← normalizeZone py zone
  addServers py deleting prefixes zone servers ⟨∅, ∅, []⟩

/-- Every desired name is the name of a server in the zone. -/
def NamesServers (prefixes : List Str) (zone : Str) (inv : Inventory) : Prop :=
  ∀ fqdn ∈ inv.desired, ∃ label pre,
    isDnsLabel label = true ∧ pre ∈ prefixes ∧ fqdn = serverName label pre zone

theorem publishSlots_names
    {label serverId zone : Str} {prefixes : List Str}
    {slots : List (Str × Slot)} {inv inv' : Inventory}
    (hlabel : isDnsLabel label = true)
    (hslots : ∀ slot ∈ slots, slot.1 ∈ prefixes)
    (hinv : NamesServers prefixes zone inv)
    (h : publishSlots label serverId zone slots inv = .ok inv') :
    NamesServers prefixes zone inv' := by
  induction slots generalizing inv with
  | nil =>
      cases h
      exact hinv
  | cons first rest ih =>
      obtain ⟨pre, slot⟩ := first
      simp only [publishSlots] at h
      have hrest : ∀ slot ∈ rest, slot.1 ∈ prefixes :=
        fun slot hslot => hslots slot (List.mem_cons_of_mem _ hslot)
      split_ifs at h
      · refine ih hrest ?_ h
        exact hinv
      · refine ih hrest ?_ h
        intro fqdn hfqdn
        rcases Finmap.mem_insert.mp hfqdn with rfl | hfqdn
        · exact ⟨label, pre, hlabel, hslots (pre, slot) List.mem_cons_self, rfl⟩
        · exact hinv fqdn hfqdn

theorem addServers_names
    {py : Interpreter} {deleting : Int} {prefixes : List Str} {zone : Str}
    {servers : List Server} {inv inv' : Inventory}
    (hinv : NamesServers prefixes zone inv)
    (h : addServers py deleting prefixes zone servers inv = .ok inv') :
    NamesServers prefixes zone inv' := by
  induction servers generalizing inv with
  | nil =>
      cases h
      exact hinv
  | cons server rest ih =>
      simp only [addServers] at h
      by_cases hstate : server.state = deleting
      · rw [if_pos hstate] at h
        refine ih ?_ h
        exact hinv
      · rw [if_neg hstate] at h
        cases hlabel : serverLabel py server with
        | error e =>
            rw [hlabel] at h
            cases h
        | ok label =>
            have hgood : isDnsLabel label = true := by
              unfold serverLabel at hlabel
              simp only at hlabel
              split_ifs at hlabel with hcheck
              cases hlabel
              exact hcheck
            rw [hlabel] at h
            simp only [bind, Except.bind] at h
            split_ifs at h
            cases hslots : privateSlots py server with
            | error e =>
                rw [hslots] at h
                cases h
            | ok slots =>
                rw [hslots] at h
                simp only at h
                split_ifs at h
                · refine ih ?_ h
                  exact hinv
                · split at h
                  · cases h
                  · next inv1 hpublish =>
                      refine ih ?_ h
                      refine publishSlots_names hgood ?_ ?_ hpublish
                      · intro slot hslot
                        exact (List.of_mem_zip hslot).1
                      · exact hinv

/-- The inventory of a normalised zone only asks for names of servers. -/
theorem buildInventory_names
    {py : Interpreter} {deleting : Int} {servers : List Server}
    {prefixes : List Str} {zone : Str} {inv : Inventory}
    (hzone : normalizeZone py zone = .ok zone)
    (h : buildInventory py deleting servers prefixes zone = .ok inv) :
    NamesServers prefixes zone inv := by
  unfold buildInventory at h
  rw [hzone] at h
  refine addServers_names ?_ h
  intro fqdn hfqdn
  exact absurd hfqdn (Finmap.notMem_empty)

end Build

end Dns
end YdbSnippets

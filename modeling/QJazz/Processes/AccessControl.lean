import QJazz.Lexical.PosixPath
import QJazz.Net.Cidr

/-! A host name stands for all the addresses that it is resolved to, and the connection may use any
of them. -/
namespace QJazz.Processes

open Lexical Net

/-- An address of either family. Two addresses of the second one are equal only if their scopes
are. -/
inductive Address where
  | v4 (bits : BitVec 32)
  | v6 (bits : BitVec 128) (scope : Option Text := none)
  deriving DecidableEq

inductive Network where
  | v4 (network : Cidr 32)
  | v6 (network : Cidr 128)
  deriving DecidableEq

def Network.contains : Network → Address → Bool
  | .v4 n, .v4 bits => n.contains bits
  | .v6 n, .v6 bits _ => n.contains bits
  | _, _ => false

inductive HostFilter where
  | address (a : Address)
  | network (n : Network)
  | name (test : Text)
  deriving DecidableEq

inductive Order where
  | allow
  | deny
  deriving DecidableEq

structure AccessControlConfig where
  order : Order := .allow
  allow : List HostFilter := []
  deny : List HostFilter := []

/-- The pattern for addresses names the class of IPv4 addresses twice, so an entry that is an IPv6
address comes to the last line. -/
def matchIp (ip : Address) (hostname : Option Text) : HostFilter → Bool
  | .address (.v4 bits) => decide (ip = .v4 bits)
  | .network n => n.contains ip
  | .name test =>
    match hostname with
    | none | some [] => false
    | some hostname =>
      if test.head? = some '.' then test.isSuffixOf hostname else decide (test = hostname)
  | .address (.v6 _ _) => false

namespace AccessControlConfig

variable (c : AccessControlConfig) (hostname : Option Text) (ip : Address)

def allowIp : Bool :=
  c.allow.any (matchIp ip hostname)

def denyIp : Bool :=
  c.deny.any (matchIp ip hostname)

def checkIp : Bool :=
  match c.order with
  | .allow => !c.denyIp hostname ip || c.allowIp hostname ip
  | .deny => c.allowIp hostname ip && !c.denyIp hostname ip

end AccessControlConfig

structure Resolution where
  /-- The address that the text is, if it is one. -/
  parseAddress : Text → Option Address
  /-- The addresses of a name, unless `getaddrinfo` raises. -/
  getaddrinfo : Text → Option (List Address)

def AccessControlConfig.checkHostname (c : AccessControlConfig) (env : Resolution)
    (hostname : Text) : Option Bool :=
  match env.parseAddress hostname with
  | some ip => some (c.checkIp none ip)
  | none => (env.getaddrinfo hostname).map fun ips => ips.any (c.checkIp (some hostname))

def Network.Covers : Network → Address → Prop
  | .v4 n, .v4 bits => n.Covers bits
  | .v6 n, .v6 bits _ => n.Covers bits
  | _, _ => False

def HostFilter.Matches (ip : Address) (hostname : Option Text) : HostFilter → Prop
  | .address a => ip = a
  | .network n => n.Covers ip
  | .name test => ∃ host, hostname = some host ∧ host ≠ [] ∧
      if test.head? = some '.' then test <:+ host else test = host

namespace AccessControlConfig

variable (c : AccessControlConfig) (hostname : Option Text) (ip : Address)

/-- Allowed by default except those in deny, with those in allow put back; or denied by default except
those in allow, without those in deny. -/
def Permitted : Prop :=
  match c.order with
  | .allow => ¬ ((∃ f ∈ c.deny, f.Matches ip hostname) ∧ ¬ ∃ f ∈ c.allow, f.Matches ip hostname)
  | .deny => (∃ f ∈ c.allow, f.Matches ip hostname) ∧ ¬ ∃ f ∈ c.deny, f.Matches ip hostname

end AccessControlConfig

def HostFilter.isV6Address : HostFilter → Bool
  | .address (.v6 _ _) => true
  | _ => false

def AccessControlConfig.withoutV6Addresses (c : AccessControlConfig) : AccessControlConfig where
  order := c.order
  allow := c.allow.filter fun f => !f.isV6Address
  deny := c.deny.filter fun f => !f.isV6Address

namespace Resolution

variable (env : Resolution) (hostname : Text)

def addresses : List Address :=
  match env.parseAddress hostname with
  | some ip => [ip]
  | none => (env.getaddrinfo hostname).getD []

def nameOf : Option Text :=
  match env.parseAddress hostname with
  | some _ => none
  | none => some hostname

end Resolution

variable {c : AccessControlConfig} {ip : Address} {hostname : Option Text}

lemma Network.contains_iff (n : Network) (a : Address) : n.contains a ↔ n.Covers a := by
  cases n <;> cases a <;> simp [contains, Covers, Cidr.contains_iff]

lemma matchIp_iff (f : HostFilter) :
    matchIp ip hostname f ↔ f.isV6Address = false ∧ f.Matches ip hostname := by
  cases f with
  | address a => cases a <;> simp [matchIp, HostFilter.isV6Address, HostFilter.Matches]
  | network n => simp [matchIp, HostFilter.isV6Address, HostFilter.Matches, Network.contains_iff]
  | name t =>
    simp only [matchIp, HostFilter.isV6Address, HostFilter.Matches, true_and]
    cases hostname with
    | none => simp
    | some host =>
      cases host with
      | nil => simp
      | cons a host =>
        by_cases ht : t.head? = some '.'
        · simp [ht]
        · simp [ht, eq_comm]

lemma any_matchIp_iff (fs : List HostFilter) : fs.any (matchIp ip hostname) ↔
      ∃ f ∈ fs.filter (fun f => !f.isV6Address), f.Matches ip hostname := by
  simp [List.any_eq_true, matchIp_iff, and_assoc]

namespace AccessControlConfig

lemma checkIp_iff : c.checkIp hostname ip ↔ c.withoutV6Addresses.Permitted hostname ip := by
  have hl : c.allowIp hostname ip ↔ _ := any_matchIp_iff c.allow
  have hd : c.denyIp hostname ip ↔ _ := any_matchIp_iff c.deny
  rw [checkIp, Permitted]
  cases ho : c.order with
  | allow =>
    simp only [withoutV6Addresses, ho, ← hl, ← hd]
    cases c.denyIp hostname ip <;> simp
  | deny =>
    simp only [withoutV6Addresses, ho, ← hl, ← hd]
    simp

lemma checkHostname_iff {env : Resolution} {host : Text} : c.checkHostname env host = some true ↔
      ∃ ip ∈ env.addresses host, c.checkIp (env.nameOf host) ip = true := by
  rw [checkHostname, Resolution.addresses, Resolution.nameOf]
  cases env.parseAddress host with
  | some ip => simp
  | none =>
    cases env.getaddrinfo host with
    | none | some ips => simp

/-- One address that the check lets through opens the connection to all of them. -/
theorem permitted_of_checkHostname_iff (c : AccessControlConfig) (env : Resolution) (host : Text) :
    (c.checkHostname env host = some true →
        ∀ ip ∈ env.addresses host, c.Permitted (env.nameOf host) ip) ↔
      ∀ ip ∈ env.addresses host, c.withoutV6Addresses.Permitted (env.nameOf host) ip →
        ∀ ip' ∈ env.addresses host, c.Permitted (env.nameOf host) ip' := by
  rw [checkHostname_iff]
  constructor
  · intro h ip hip hp
    exact h ⟨ip, hip, checkIp_iff.2 hp⟩
  · rintro h ⟨ip, hip, hh⟩
    exact h ip hip (checkIp_iff.1 hh)

def resolvesTo (ips : List Address) : Resolution where
  parseAddress _ := none
  getaddrinfo _ := some ips

def privateNetwork : AccessControlConfig where
  order := .deny
  allow := [.network (.v4 ⟨0x0a000000, 8, by decide, by decide⟩)]

def noLoopback : AccessControlConfig where
  deny := [.address (.v6 1)]

/-- The second address of a host is not in the network that is allowed, and the address of another
host is denied. -/
theorem checkHostname_lets_through :
    privateNetwork.checkHostname (resolvesTo [.v4 0x0a000001, .v4 0xa9fea9fe]) "a".toList =
        some true ∧ ¬ privateNetwork.Permitted (some "a".toList) (.v4 0xa9fea9fe) ∧
      noLoopback.checkHostname (resolvesTo [.v6 1]) "a".toList = some true ∧
      ¬ noLoopback.Permitted (some "a".toList) (.v6 1) := by
  refine ⟨by decide, ?_, by decide, ?_⟩
  · rintro ⟨⟨f, hf, hm⟩, _⟩
    rw [privateNetwork, List.mem_singleton] at hf
    subst hf
    rw [HostFilter.Matches, ← Network.contains_iff] at hm
    exact absurd hm (by decide)
  · intro hp
    exact hp ⟨⟨.address (.v6 1), by simp [noLoopback], rfl⟩, by simp [noLoopback]⟩

end AccessControlConfig
end QJazz.Processes

import Mathlib.Logic.Relation
import XR806.Keyed
import XR806.Word

/-!
# XR806.Dhcp.Leases

The lease table of the DHCP server (`leases.c`): a fixed number of entries, each with a client, an
address and the second it expires in. An address that somebody else turns out to use is reserved by
an entry for the blank client.

`Change` says once what a turn of the server can do to the table. `TableOk` is kept by every change,
and so is an entry that has not expired, when the change is for another client.
-/

namespace XR806
namespace Dhcp

open Keyed

/-- `chaddr`, 16 bytes. -/
abbrev Chaddr := Vector UInt8 16

def blankChaddr : Chaddr := .replicate 16 0

/-- `htonl`, which is `ntohl` as well. -/
def htonl (n : Nat) : Nat :=
  ((n % 256 * 256 + n / 2 ^ 8 % 256) * 256 + n / 2 ^ 16 % 256) * 256 + n / 2 ^ 24 % 256

def ntohl (n : Nat) : Nat := htonl n

/-- `struct dhcpOfferedAddr`. -/
structure Lease where
  chaddr : Chaddr
  yiaddr : Nat
  expires : Nat
  deriving DecidableEq

/-- An entry that `memset` has cleared. -/
def Lease.cleared : Lease := ⟨blankChaddr, 0, 0⟩

/-- `struct server_config_t`, as far as addresses and times go. The loop over the addresses would wrap
around behind `255.255.255.255`. -/
structure ServerConfig where
  server : Nat
  start : Nat
  «end» : Nat
  lease : Nat
  declineTime : Nat
  conflictTime : Nat
  offerTime : Nat
  minLease : Nat
  end_lt : ntohl «end» + 1 < 2 ^ 32
  lease_lt : lease < 2 ^ 32

/-- The clock, the leases, and what `arpping` is going to answer in this turn: whether the address is
used, and the seconds it has waited. -/
structure Table where
  now : Nat
  leases : List Lease
  arps : List (Bool × Nat)
  deriving DecidableEq

section

variable (cfg : ServerConfig) (chaddr : Chaddr) (yiaddr lease now : Nat) (leases : List Lease)

def clearLease : List Lease :=
  leases.map fun l =>
    if (chaddr ≠ blankChaddr ∧ l.chaddr = chaddr) ∨ (yiaddr ≠ 0 ∧ l.yiaddr = yiaddr) then .cleared
    else l

def leaseExpired (l : Lease) : Bool := l.expires < now

/-- The loop of `oldest_expired_lease`, at entry `i`. -/
def oldestLoop (oldestLease : Nat) (oldest : Option Nat) (i : Nat) : List Lease → Option Nat
  | [] => oldest
  | l :: rest =>
    if oldestLease > l.expires then oldestLoop l.expires (some i) (i + 1) rest
    else oldestLoop oldestLease oldest (i + 1) rest

def oldestExpiredLease : Option Nat := oldestLoop now none 0 leases

/-- `add_lease`, and whether there was room. -/
def addLease : List Lease × Bool :=
  let leases := clearLease chaddr yiaddr leases
  match oldestExpiredLease now leases with
  | some oldest => (leases.set oldest ⟨chaddr, yiaddr, u32 (now + lease)⟩, true)
  | none => (leases, false)

/-- The entry's place. -/
def findLeaseByChaddr : Option Nat := leases.findIdx? fun l => l.chaddr = chaddr

def findLeaseByYiaddr : Option Nat := leases.findIdx? fun l => l.yiaddr = yiaddr

/-- `add_lease` in a turn. -/
def Table.add (t : Table) : Table × Bool :=
  let added := addLease chaddr yiaddr lease t.now t.leases
  ({ t with leases := added.1 }, added.2)

/-- `check_ip`: an address that is taken is reserved. -/
def checkIp (addr : Nat) (t : Table) : Table × Bool :=
  match t.arps with
  | [] => (t, false)
  | (used, elapsed) :: rest =>
    let t := { t with now := t.now + elapsed, arps := rest }
    if used then ((t.add blankChaddr addr cfg.conflictTime).1, true) else (t, false)

/-- The lease is not taken, or it has expired and those are looked at. -/
def assignable (checkExpired : Bool) (addr : Nat) (t : Table) : Bool :=
  match findLeaseByYiaddr addr t.leases with
  | none => true
  | some i => checkExpired && (t.leases[i]?.map (leaseExpired t.now)).getD false

/-- The loop of `find_address` at `addr`, with so many addresses to go. -/
def findAddressLoop (checkExpired : Bool) : Nat → Nat → Table → Table × Nat
  | 0, _, t => (t, 0)
  | left + 1, addr, t =>
    if addr % 256 = 0 ∨ addr % 256 = 255 then findAddressLoop checkExpired left (addr + 1) t
    else if assignable checkExpired (htonl addr) t then
      let checked := checkIp cfg (htonl addr) t
      if checked.2 then findAddressLoop checkExpired left (addr + 1) checked.1
      else (checked.1, htonl addr)
    else findAddressLoop checkExpired left (addr + 1) t

def findAddress (checkExpired : Bool) (t : Table) : Table × Nat :=
  findAddressLoop cfg checkExpired (ntohl cfg.end + 1 - ntohl cfg.start) (ntohl cfg.start) t

/-- `udhcpd_upgrade_sta_mac`, given the addresses of the stations that `wlan_ap_sta_info` names. -/
def upgradeStaMac (stas : Option (List (List UInt8))) : List Lease :=
  match stas with
  | none => leases
  | some stas => leases.map fun l =>
    if l.yiaddr ≠ 0 ∧ l.expires ≠ 0 ∧ l.chaddr.toList.take 6 ∉ stas then .cleared else l

end

/-! ## What a turn can do to the table -/

/-- The client of an entry, unless it is blank. -/
def Lease.client (l : Lease) : Option Chaddr := if l.chaddr = blankChaddr then none else some l.chaddr

def Lease.address (l : Lease) : Option Nat := if l.yiaddr = 0 then none else some l.yiaddr

def InPool (cfg : ServerConfig) (yiaddr : Nat) : Prop :=
  ntohl cfg.start ≤ ntohl yiaddr ∧ ntohl yiaddr ≤ ntohl cfg.end

/-- No client and no address has two entries, the addresses are from the pool, and a client that is
not blank has one. -/
structure TableOk (cfg : ServerConfig) (leases : List Lease) : Prop where
  clients : Distinct Lease.client leases
  addresses : Distinct Lease.address leases
  pool : ∀ l ∈ leases, l.yiaddr ≠ 0 → InPool cfg l.yiaddr
  named : ∀ l ∈ leases, l.chaddr ≠ blankChaddr → l.yiaddr ≠ 0

/-- The address may be given to the client: nobody else has it, or has had it until now. -/
def MayGive (now : Nat) (leases : List Lease) (chaddr : Chaddr) (yiaddr : Nat) : Prop :=
  ∀ l ∈ leases, l.yiaddr = yiaddr → yiaddr ≠ 0 → l.chaddr = chaddr ∨ l.expires < now

/-- A change of the table in a turn for `client`. -/
inductive Change (cfg : ServerConfig) (client : Chaddr) (stas : Option (List (List UInt8)))
    (now : Nat) (leases : List Lease) : List Lease → Prop where
  | add {chaddr : Chaddr} {yiaddr lease : Nat} (hwho : chaddr = client ∨ chaddr = blankChaddr)
    (hpool : yiaddr ≠ 0 → InPool cfg yiaddr) (hnamed : chaddr ≠ blankChaddr → yiaddr ≠ 0)
    (hgive : MayGive now leases chaddr yiaddr) :
    Change cfg client stas now leases (addLease chaddr yiaddr lease now leases).1
  | edit {i : Nat} {l : Lease} {chaddr : Chaddr} {expires : Nat} (hget : leases[i]? = some l)
    (hwho : l.chaddr = client ∨ l.expires < now) (hchaddr : chaddr = l.chaddr ∨ chaddr = blankChaddr) :
    Change cfg client stas now leases (leases.set i ⟨chaddr, l.yiaddr, expires⟩)
  | upgrade : Change cfg client stas now leases (upgradeStaMac leases stas)

/-- The steps of a turn: time passes, or the table changes. -/
inductive TurnStep (cfg : ServerConfig) (client : Chaddr) (stas : Option (List (List UInt8))) :
    Nat × List Lease → Nat × List Lease → Prop where
  | tick {now later : Nat} {leases : List Lease} (h : now ≤ later) :
    TurnStep cfg client stas (now, leases) (later, leases)
  | change {now : Nat} {leases leases' : List Lease} (h : Change cfg client stas now leases leases') :
    TurnStep cfg client stas (now, leases) (now, leases')

section

variable {cfg : ServerConfig} {client chaddr c : Chaddr} {yiaddr a lease now later till i : Nat}
  {leases leases' : List Lease} {l : Lease} {stas : Option (List (List UInt8))}

theorem Lease.client_eq_some : l.client = some c ↔ l.chaddr = c ∧ c ≠ blankChaddr := by
  unfold Lease.client
  split
  · rename_i h
    simp only [reduceCtorEq, false_iff, not_and, not_not]
    intro hc
    rw [← hc, h]
  · rename_i h
    simp only [Option.some.injEq, iff_self_and]
    rintro rfl
    exact h

theorem Lease.address_eq_some : l.address = some a ↔ l.yiaddr = a ∧ a ≠ 0 := by
  unfold Lease.address
  split
  · rename_i h
    simp only [reduceCtorEq, false_iff, not_and, not_not]
    intro ha
    rw [← ha, h]
  · rename_i h
    simp only [Option.some.injEq, iff_self_and]
    rintro rfl
    exact h

/-- The oldest entry has expired, if there is one. -/
theorem oldestLoop_some {oldestLease n : Nat} {oldest : Option Nat} {rest : List Lease}
    (hle : oldestLease ≤ now) (h : oldestLoop oldestLease oldest n rest = some i) :
    oldest = some i ∨ n ≤ i ∧ ∃ l, rest[i - n]? = some l ∧ l.expires < now := by
  induction rest generalizing oldestLease oldest n with
  | nil => exact .inl h
  | cons l rest ih =>
    have hnext : n + 1 ≤ i → ∀ l', rest[i - (n + 1)]? = some l' → (l :: rest)[i - n]? = some l' := by
      intro hi l' hl'
      rwa [show i - n = i - (n + 1) + 1 by omega, List.getElem?_cons_succ]
    rw [oldestLoop] at h
    split at h
    · rename_i hlt
      rcases ih (by omega) h with hi | ⟨hi, l', hl', hexp⟩
      · cases hi
        exact .inr ⟨Nat.le_refl _, l, by simp, by omega⟩
      · exact .inr ⟨by omega, l', hnext hi l' hl', hexp⟩
    · rcases ih hle h with hi | ⟨hi, l', hl', hexp⟩
      · exact .inl hi
      · exact .inr ⟨by omega, l', hnext hi l' hl', hexp⟩

theorem oldestExpiredLease_some (h : oldestExpiredLease now leases = some i) :
    ∃ l, leases[i]? = some l ∧ l.expires < now := by
  rcases oldestLoop_some (Nat.le_refl now) h with h | ⟨-, l, hl, hexp⟩
  · cases h
  · exact ⟨l, hl, hexp⟩

theorem oldestLoop_isSome {oldestLease n j : Nat} {oldest : Option Nat} {rest : List Lease}
    (h : oldest.isSome ∨ rest[j]? = some l ∧ l.expires < oldestLease) :
    (oldestLoop oldestLease oldest n rest).isSome := by
  induction rest generalizing oldestLease oldest n j with
  | nil => simpa [oldestLoop] using h
  | cons l' rest ih =>
    rw [oldestLoop]
    split
    · exact ih (j := 0) (.inl rfl)
    · rename_i hle
      refine ih (j := j - 1) (h.imp id ?_)
      rintro ⟨hl, hexp⟩
      cases j with
      | zero =>
        cases hl
        exact absurd hexp hle
      | succ j => exact ⟨by simpa using hl, hexp⟩

/-! ### Single entries -/

/-- An entry of the table without the entries of this client and of this address. -/
theorem getElem?_clearLease (chaddr : Chaddr) (yiaddr : Nat) (h : leases[i]? = some l) :
    (clearLease chaddr yiaddr leases)[i]? = some .cleared ∧
      ((chaddr ≠ blankChaddr ∧ l.chaddr = chaddr) ∨ (yiaddr ≠ 0 ∧ l.yiaddr = yiaddr)) ∨
    (clearLease chaddr yiaddr leases)[i]? = some l ∧
      (chaddr ≠ blankChaddr → l.chaddr ≠ chaddr) ∧ (yiaddr ≠ 0 → l.yiaddr ≠ yiaddr) := by
  simp only [clearLease, List.getElem?_map, h, Option.map_some]
  split
  · rename_i hclear
    exact .inl ⟨rfl, hclear⟩
  · rename_i hkeep
    exact .inr ⟨rfl, fun hc hl => hkeep (.inl ⟨hc, hl⟩), fun hy hl => hkeep (.inr ⟨hy, hl⟩)⟩

theorem getElem?_addLease (h : (addLease chaddr yiaddr lease now leases).1[i]? = some l) :
    l = ⟨chaddr, yiaddr, u32 (now + lease)⟩ ∧
      oldestExpiredLease now (clearLease chaddr yiaddr leases) = some i ∨
    (oldestExpiredLease now (clearLease chaddr yiaddr leases) ≠ some i) ∧
      (l = .cleared ∨ leases[i]? = some l ∧
        (chaddr ≠ blankChaddr → l.chaddr ≠ chaddr) ∧ (yiaddr ≠ 0 → l.yiaddr ≠ yiaddr)) := by
  have hclear : ∀ l, (clearLease chaddr yiaddr leases)[i]? = some l → l = .cleared ∨
      leases[i]? = some l ∧ (chaddr ≠ blankChaddr → l.chaddr ≠ chaddr) ∧
        (yiaddr ≠ 0 → l.yiaddr ≠ yiaddr) := by
    intro l hl
    have hold : ∃ l', leases[i]? = some l' := by
      rw [clearLease, List.getElem?_map, Option.map_eq_some_iff] at hl
      obtain ⟨l', hl', -⟩ := hl
      exact ⟨l', hl'⟩
    obtain ⟨l', hl'⟩ := hold
    obtain ⟨hc, -⟩ | ⟨hk, hfacts⟩ := getElem?_clearLease chaddr yiaddr hl'
    · rw [hc] at hl
      exact .inl (Option.some.inj hl).symm
    · rw [hk] at hl
      cases hl
      exact .inr ⟨hl', hfacts⟩
  unfold addLease at h
  cases hold : oldestExpiredLease now (clearLease chaddr yiaddr leases) with
  | none =>
    simp only [hold] at h
    exact .inr ⟨nofun, hclear l h⟩
  | some oldest =>
    simp only [hold] at h
    obtain ⟨rfl, rfl⟩ | ⟨hne, h⟩ := getElem?_set_cases h
    · exact .inl ⟨rfl, rfl⟩
    · exact .inr ⟨fun heq => hne (Option.some.inj heq).symm, hclear l h⟩

/-- A key that the added entry has, no entry has that is left. -/
theorem distinct_add {κ : Type} {key : Lease → Option κ} (h : Distinct key leases)
    (hcleared : key .cleared = none)
    (hfresh : ∀ l k, key ⟨chaddr, yiaddr, u32 (now + lease)⟩ = some k →
      (chaddr ≠ blankChaddr → l.chaddr ≠ chaddr) → (yiaddr ≠ 0 → l.yiaddr ≠ yiaddr) →
      key l ≠ some k) : Distinct key (addLease chaddr yiaddr lease now leases).1 := by
  intro i j a b k ha hb hka hkb
  obtain ⟨rfl, hi⟩ | ⟨-, hl⟩ := getElem?_addLease ha
  · obtain ⟨-, hj⟩ | ⟨-, hl'⟩ := getElem?_addLease hb
    · exact Option.some.inj (hi.symm.trans hj)
    · rcases hl' with rfl | ⟨-, hc, hy⟩
      · rw [hcleared] at hkb
        cases hkb
      · exact absurd hkb (hfresh b k hka hc hy)
  · obtain ⟨rfl, -⟩ | ⟨-, hl'⟩ := getElem?_addLease hb
    · rcases hl with rfl | ⟨-, hc, hy⟩
      · rw [hcleared] at hka
        cases hka
      · exact absurd hka (hfresh a k hkb hc hy)
    · rcases hl with rfl | ⟨hl, -⟩
      · rw [hcleared] at hka
        cases hka
      · rcases hl' with rfl | ⟨hl', -⟩
        · rw [hcleared] at hkb
          cases hkb
        · exact h i j a b k hl hl' hka hkb

theorem mem_addLease (h : l ∈ (addLease chaddr yiaddr lease now leases).1) :
    l = ⟨chaddr, yiaddr, u32 (now + lease)⟩ ∨ l = .cleared ∨ l ∈ leases := by
  obtain ⟨i, hi⟩ := List.mem_iff_getElem?.mp h
  obtain ⟨rfl, -⟩ | ⟨-, rfl | ⟨hl, -⟩⟩ := getElem?_addLease hi
  · exact .inl rfl
  · exact .inr (.inl rfl)
  · exact .inr (.inr (List.mem_of_getElem? hl))

theorem TableOk.add (h : TableOk cfg leases) (hpool : yiaddr ≠ 0 → InPool cfg yiaddr)
    (hnamed : chaddr ≠ blankChaddr → yiaddr ≠ 0) :
    TableOk cfg (addLease chaddr yiaddr lease now leases).1 where
  clients := by
    refine distinct_add h.clients rfl fun l k hk hc _ hl => ?_
    obtain ⟨rfl, hne⟩ := Lease.client_eq_some.mp hk
    exact hc hne (Lease.client_eq_some.mp hl).1
  addresses := by
    refine distinct_add h.addresses rfl fun l k hk _ hy hl => ?_
    obtain ⟨rfl, hne⟩ := Lease.address_eq_some.mp hk
    exact hy hne (Lease.address_eq_some.mp hl).1
  pool := by
    intro l hl hne
    rcases mem_addLease hl with rfl | rfl | hl
    · exact hpool hne
    · exact absurd rfl hne
    · exact h.pool l hl hne
  named := by
    intro l hl hne
    rcases mem_addLease hl with rfl | rfl | hl
    · exact hnamed hne
    · exact absurd rfl hne
    · exact h.named l hl hne

theorem TableOk.kept (h : TableOk cfg leases)
    (hkept : ∀ (i : Nat) (l' : Lease), leases'[i]? = some l' → l' = .cleared ∨
      ∃ l : Lease, leases[i]? = some l ∧ l'.yiaddr = l.yiaddr ∧
        (l'.chaddr = l.chaddr ∨ l'.chaddr = blankChaddr)) : TableOk cfg leases' where
  clients := by
    refine h.clients.of_kept fun i l' k hl' hk => ?_
    obtain ⟨hchaddr, hne⟩ := Lease.client_eq_some.mp hk
    rcases hkept i l' hl' with rfl | ⟨l, hl, -, hsame | hblank⟩
    · exact absurd hchaddr.symm hne
    · exact ⟨l, hl, Lease.client_eq_some.mpr ⟨hsame ▸ hchaddr, hne⟩⟩
    · exact absurd (hchaddr.symm.trans hblank) hne
  addresses := by
    refine h.addresses.of_kept fun i l' k hl' hk => ?_
    obtain ⟨hyiaddr, hne⟩ := Lease.address_eq_some.mp hk
    rcases hkept i l' hl' with rfl | ⟨l, hl, hsame, -⟩
    · exact absurd hyiaddr.symm hne
    · exact ⟨l, hl, Lease.address_eq_some.mpr ⟨hsame ▸ hyiaddr, hne⟩⟩
  pool := by
    intro l' hl' hne
    obtain ⟨i, hi⟩ := List.mem_iff_getElem?.mp hl'
    rcases hkept i l' hi with rfl | ⟨l, hl, hsame, -⟩
    · exact absurd rfl hne
    · rw [hsame] at hne ⊢
      exact h.pool l (List.mem_of_getElem? hl) hne
  named := by
    intro l' hl' hne
    obtain ⟨i, hi⟩ := List.mem_iff_getElem?.mp hl'
    rcases hkept i l' hi with rfl | ⟨l, hl, hsame, hchaddr | hblank⟩
    · exact absurd rfl hne
    · rw [hchaddr] at hne
      rw [hsame]
      exact h.named l (List.mem_of_getElem? hl) hne
    · exact absurd hblank hne

theorem Change.ok (hchange : Change cfg client stas now leases leases') (h : TableOk cfg leases) :
    TableOk cfg leases' := by
  cases hchange with
  | add _ hpool hnamed _ => exact h.add hpool hnamed
  | edit hget _ hchaddr =>
    refine h.kept fun i l' hl' => .inr ?_
    obtain ⟨rfl, rfl⟩ | ⟨-, hl'⟩ := getElem?_set_cases hl'
    · exact ⟨_, hget, rfl, hchaddr⟩
    · exact ⟨l', hl', rfl, .inl rfl⟩
  | upgrade =>
    unfold upgradeStaMac
    split
    · exact h
    · refine h.kept fun i l' hl' => ?_
      rw [List.getElem?_map, Option.map_eq_some_iff] at hl'
      obtain ⟨l, hl, rfl⟩ := hl'
      split
      · exact .inl rfl
      · exact .inr ⟨l, hl, rfl, .inl rfl⟩

/-! ### An entry that has not expired -/

/-- The station of the client is among those that are connected, when they are known. -/
def Connected (stas : Option (List (List UInt8))) (c : Chaddr) : Prop :=
  ∀ named, stas = some named → c.toList.take 6 ∈ named

theorem addLease_kept (hget : leases[i]? = some l) (htill : now ≤ l.expires)
    (hchaddr : chaddr ≠ blankChaddr → l.chaddr ≠ chaddr) (hyiaddr : yiaddr ≠ 0 → l.yiaddr ≠ yiaddr) :
    l ∈ (addLease chaddr yiaddr lease now leases).1 := by
  have hclear : (clearLease chaddr yiaddr leases)[i]? = some l := by
    obtain ⟨-, ⟨hne, heq⟩ | ⟨hne, heq⟩⟩ | ⟨hkeep, -⟩ := getElem?_clearLease chaddr yiaddr hget
    · exact absurd heq (hchaddr hne)
    · exact absurd heq (hyiaddr hne)
    · exact hkeep
  simp only [addLease]
  split
  · rename_i oldest hold
    obtain ⟨l', hl', hexp⟩ := oldestExpiredLease_some hold
    have hne : oldest ≠ i := by
      rintro rfl
      rw [hclear] at hl'
      cases hl'
      omega
    refine List.mem_of_getElem? (i := i) ?_
    rw [List.getElem?_set_ne hne]
    exact hclear
  · exact List.mem_of_getElem? hclear

/-- A change for another client leaves an entry alone that has not expired. -/
theorem Change.keeps (hchange : Change cfg client stas now leases leases') (hl : l ∈ leases)
    (htill : now ≤ l.expires) (hclient : l.chaddr ≠ client) (hblank : l.chaddr ≠ blankChaddr)
    (hstas : Connected stas l.chaddr) : l ∈ leases' := by
  obtain ⟨i, hi⟩ := List.mem_iff_getElem?.mp hl
  cases hchange with
  | @add chaddr yiaddr lease hwho _ _ hgive =>
    have hother : l.chaddr ≠ chaddr := by
      rcases hwho with rfl | rfl
      · exact hclient
      · exact hblank
    refine addLease_kept hi htill (fun _ => hother) fun hne heq => ?_
    rcases hgive l hl heq hne with hsame | hexp
    · exact hother hsame
    · omega
  | @edit j l' chaddr expires hget hwho _ =>
    have hne : j ≠ i := by
      rintro rfl
      rw [hi] at hget
      cases hget
      rcases hwho with hsame | hexp
      · exact hclient hsame
      · omega
    refine List.mem_of_getElem? (i := i) ?_
    rw [List.getElem?_set_ne hne]
    exact hi
  | upgrade =>
    unfold upgradeStaMac
    split
    · exact hl
    · rename_i named
      exact List.mem_map.mpr ⟨l, hl, if_neg fun hout => hout.2.2 (hstas named rfl)⟩

/-! ### Turns -/

theorem turn_ok {s s' : Nat × List Lease}
    (hsteps : Relation.ReflTransGen (TurnStep cfg client stas) s s') (h : TableOk cfg s.2) :
    TableOk cfg s'.2 := by
  induction hsteps with
  | refl => exact h
  | tail _ hstep ih =>
    cases hstep with
    | tick _ => exact ih
    | change hchange => exact hchange.ok ih

theorem turn_le {s s' : Nat × List Lease}
    (hsteps : Relation.ReflTransGen (TurnStep cfg client stas) s s') : s.1 ≤ s'.1 := by
  induction hsteps with
  | refl => exact Nat.le_refl _
  | tail _ hstep ih =>
    cases hstep with
    | tick hle => exact ih.trans hle
    | change _ => exact ih

theorem turn_keeps {s s' : Nat × List Lease}
    (hsteps : Relation.ReflTransGen (TurnStep cfg client stas) s s') (hl : l ∈ s.2)
    (htill : s'.1 ≤ l.expires) (hclient : l.chaddr ≠ client) (hblank : l.chaddr ≠ blankChaddr)
    (hstas : Connected stas l.chaddr) : l ∈ s'.2 := by
  induction hsteps with
  | refl => exact hl
  | tail _ hstep ih =>
    cases hstep with
    | tick hle => exact ih (hle.trans htill)
    | change hchange => exact hchange.keeps (ih htill) htill hclient hblank hstas

end

end Dhcp
end XR806

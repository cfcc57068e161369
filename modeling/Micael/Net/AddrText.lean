import Mathlib.Tactic
import Micael.Net.Arp

/-!
# Addresses as text, and back

`net_ipv4_bin2addr` writes the octets of an address into a buffer, `net_ipv4_addr2bin` reads a string of
octets.  The first compares with {lit}`>` where ten and a hundred belong to the longer form, so that these
octets, and 101 to 109, are written without their first digit.  The second steps over the character that
ended an octet, the terminating zero too, and reads on behind the string.

Both are followed here in a memory of any content: {lit}`dst` is the memory at the buffer before the text is
written, and a string is read from the memory in which it stands.

Main results:

- Theorem {lit}`bin2addrInto_iff`: the buffer holds the dotted form just when all octets are rendered.
- Theorem {lit}`addr2binAt_dotted_iff`: the dotted form is read back as the address just when the byte behind
  its terminating zero is zero.
- Theorem {lit}`dotted_round_trip_iff`: both together, for every address and every memory.
-/

namespace Micael
namespace Net

/-! ## Reading in memory -/

/-- The inner loop of `net_ipv4_addr2bin` at `ptr`, with a number of turns left: the value, and where it
ended. -/
def addr2binOctetAt (src : Nat → UInt8) : Nat → UInt8 → Nat → Option (UInt8 × Nat)
  | 0, _, _ => none
  | n + 1, val, ptr =>
      if src ptr ≠ 0 ∧ src ptr ≠ dot then
        addr2binOctetAt src n (val * 10 + (src ptr - 48)) (ptr + 1)
      else some (val, ptr)

/-- The outer loop of `net_ipv4_addr2bin` at `ptr`: the bytes that are written to `dst`. -/
def addr2binAt (src : Nat → UInt8) : Nat → Nat → Option (List UInt8)
  | 0, _ => none
  | n + 1, ptr =>
      if src ptr ≠ 0 then
        (addr2binOctetAt src n 0 ptr).bind fun octet =>
          (addr2binAt src n (octet.2 + 1)).map (octet.1 :: ·)
      else some []

/-- The memory holds the text at an address. -/
def HoldsAt (src : Nat → UInt8) (ptr : Nat) (text : List UInt8) : Prop :=
  ∀ j c, text[j]? = some c → src (ptr + j) = c

section Reading

variable {src : Nat → UInt8} {ptr : Nat}

theorem holdsAt_cons {c : UInt8} {str : List UInt8} :
    HoldsAt src ptr (c :: str) ↔ src ptr = c ∧ HoldsAt src (ptr + 1) str := by
  constructor
  · intro h
    refine ⟨h 0 c rfl, fun j d hd => ?_⟩
    rw [Nat.add_assoc, Nat.add_comm 1 j]
    exact h (j + 1) d hd
  · rintro ⟨hfirst, hrest⟩ j d hd
    cases j with
    | zero => exact hfirst.trans (Option.some.inj hd)
    | succ j =>
        rw [← Nat.add_assoc, Nat.add_right_comm]
        exact hrest j d hd

theorem holdsAt_append {front str : List UInt8} :
    HoldsAt src ptr (front ++ str) ↔
      HoldsAt src ptr front ∧ HoldsAt src (ptr + front.length) str := by
  induction front generalizing ptr with
  | nil => simp [HoldsAt]
  | cons c front ih =>
      rw [List.cons_append, holdsAt_cons, ih, holdsAt_cons, List.length_cons, and_assoc,
        Nat.add_assoc, Nat.add_comm 1]

/-- The inner loop over characters that do not end an octet, up to one that does. -/
theorem addr2binOctetAt_run {text : List UInt8} {c : UInt8} (htext : ∀ d ∈ text, d ≠ 0 ∧ d ≠ dot)
    (hc : ¬ (c ≠ 0 ∧ c ≠ dot)) (h : HoldsAt src ptr (text ++ [c])) {n : Nat}
    (hn : text.length < n) (val : UInt8) :
    addr2binOctetAt src n val ptr =
      some ((addr2binOctet val (text ++ [c])).1, ptr + text.length) := by
  induction text generalizing n ptr val with
  | nil =>
      obtain ⟨hfirst, -⟩ := holdsAt_cons.mp h
      cases n with
      | zero => exact absurd hn (by simp)
      | succ n =>
          rw [addr2binOctetAt, hfirst, if_neg hc, List.nil_append, addr2binOctet, if_neg hc]
          rfl
  | cons d text ih =>
      obtain ⟨hfirst, hrest⟩ := holdsAt_cons.mp h
      cases n with
      | zero => exact absurd hn (by simp)
      | succ n =>
          rw [List.length_cons] at hn
          have hd := htext d List.mem_cons_self
          rw [addr2binOctetAt, hfirst, if_pos hd, List.cons_append, addr2binOctet, if_pos hd,
            ih (fun e he => htext e (List.mem_cons_of_mem d he)) hrest (by omega),
            List.length_cons, Nat.add_assoc, Nat.add_comm 1]

/-- More turns do not change what the inner loop returns. -/
theorem addr2binOctetAt_succ {n : Nat} {val : UInt8} {octet : UInt8 × Nat}
    (h : addr2binOctetAt src n val ptr = some octet) :
    addr2binOctetAt src (n + 1) val ptr = some octet := by
  induction n generalizing val ptr with
  | zero => exact absurd h (by simp [addr2binOctetAt])
  | succ n ih =>
      rw [addr2binOctetAt] at h ⊢
      split_ifs at h ⊢ with hchar
      · exact ih h
      · exact h

/-- More turns do not change what is written. -/
theorem addr2binAt_succ {n : Nat} {octets : List UInt8} (h : addr2binAt src n ptr = some octets) :
    addr2binAt src (n + 1) ptr = some octets := by
  induction n generalizing ptr octets with
  | zero => exact absurd h (by simp [addr2binAt])
  | succ n ih =>
      rw [addr2binAt] at h ⊢
      split_ifs at h ⊢ with hchar
      · obtain ⟨octet, hoctet, hrest⟩ := Option.bind_eq_some_iff.mp h
        obtain ⟨later, hlater, rfl⟩ := Option.map_eq_some_iff.mp hrest
        rw [addr2binOctetAt_succ hoctet, Option.bind_some, ih hlater]
        rfl
      · exact h

theorem addr2binAt_add {n : Nat} {octets : List UInt8} (h : addr2binAt src n ptr = some octets)
    (k : Nat) : addr2binAt src (n + k) ptr = some octets := by
  induction k with
  | zero => exact h
  | succ k ih => exact addr2binAt_succ ih

/-- The characters of a decimal are digits. -/
theorem decimal_not_end (octet : UInt8) : ∀ c ∈ decimal octet, c ≠ 0 ∧ c ≠ dot := by
  have hlt : octet.toNat < 256 := octet.toNat_lt
  intro c hc
  unfold decimal at hc
  by_cases hone : octet.toNat < 10
  · simp only [if_pos hone, List.mem_singleton] at hc
    exact hc ▸ digitChar_ne hone
  · by_cases htwo : octet.toNat < 100
    · simp only [if_neg hone, if_pos htwo, List.mem_cons, List.not_mem_nil, or_false] at hc
      rcases hc with rfl | rfl
      · exact digitChar_ne (by omega)
      · exact digitChar_ne (by omega)
    · simp only [if_neg hone, if_neg htwo, List.mem_cons, List.not_mem_nil, or_false] at hc
      rcases hc with rfl | rfl | rfl
      · exact digitChar_ne (by omega)
      · exact digitChar_ne (by omega)
      · exact digitChar_ne (by omega)

/-- One octet of a text in memory. -/
theorem addr2binAt_decimal {n : Nat} (octet : UInt8) {c : UInt8} (hc : ¬ (c ≠ 0 ∧ c ≠ dot))
    (h : HoldsAt src ptr (decimal octet ++ [c])) (hn : 3 < n) :
    addr2binAt src (n + 1) ptr =
      (addr2binAt src n (ptr + (decimal octet ++ [c]).length)).map (octet :: ·) := by
  have hlength := decimal_length_le octet
  have hrun := addr2binOctetAt_run (decimal_not_end octet) hc h (show _ < n by omega) 0
  rw [addr2binOctet_decimal octet [] hc] at hrun
  obtain ⟨d, rest, hdecimal, hd⟩ := decimal_eq_cons octet
  have hfirst : src ptr = d := by
    rw [hdecimal, List.cons_append] at h
    exact (holdsAt_cons.mp h).1
  rw [addr2binAt, if_pos (hfirst ▸ hd), hrun, Option.bind_some, List.length_append, Nat.add_assoc]
  rfl

/-- The dotted form of an address and its terminating zero, octet by octet. -/
theorem dotted_pieces (ip : Ipv4Addr) :
    dotted ip ++ [0] = decimal (ip 0) ++ [dot] ++ ((decimal (ip 1) ++ [dot]) ++
      ((decimal (ip 2) ++ [dot]) ++ (decimal (ip 3) ++ [0]))) := by
  simp [dotted]

/-- The four octets of a dotted address are read, and then what stands behind its terminating zero. -/
theorem addr2binAt_dotted (ip : Ipv4Addr) (h : HoldsAt src 0 (dotted ip ++ [0])) (n : Nat) :
    addr2binAt src (n + 8) 0 =
      (addr2binAt src (n + 4) ((dotted ip).length + 1)).map (List.ofFn ip ++ ·) := by
  have hdot : ¬ (dot ≠ 0 ∧ dot ≠ dot) := by simp
  have hzero : ¬ ((0 : UInt8) ≠ 0 ∧ (0 : UInt8) ≠ dot) := by simp
  have hlength : (dotted ip).length + 1 = (dotted ip ++ [0]).length := by simp
  rw [dotted_pieces] at h hlength
  obtain ⟨h0, h⟩ := holdsAt_append.mp h
  obtain ⟨h1, h⟩ := holdsAt_append.mp h
  obtain ⟨h2, h3⟩ := holdsAt_append.mp h
  rw [addr2binAt_decimal (ip 0) hdot h0 (by omega), addr2binAt_decimal (ip 1) hdot h1 (by omega),
    addr2binAt_decimal (ip 2) hdot h2 (by omega), addr2binAt_decimal (ip 3) hzero h3 (by omega),
    hlength]
  simp only [List.length_append, Option.map_map, Nat.zero_add, Nat.add_assoc]
  rfl

/-- The dotted form of an address is read back as the address just when the byte behind its terminating zero
is zero. -/
theorem addr2binAt_dotted_iff (ip : Ipv4Addr) (h : HoldsAt src 0 (dotted ip ++ [0])) :
    (∃ n, addr2binAt src n 0 = some (List.ofFn ip)) ↔ src ((dotted ip).length + 1) = 0 := by
  constructor
  · rintro ⟨n, hread⟩
    have hmore := addr2binAt_add hread 8
    rw [addr2binAt_dotted ip h] at hmore
    obtain ⟨later, hlater, happend⟩ := Option.map_eq_some_iff.mp hmore
    obtain rfl : later = [] := List.append_right_eq_self.mp happend
    rw [addr2binAt] at hlater
    split_ifs at hlater with hchar
    · obtain ⟨octet, -, hrest⟩ := Option.bind_eq_some_iff.mp hlater
      exact absurd hrest (by simp)
    · exact not_not.mp hchar
  · intro hbehind
    refine ⟨0 + 8, ?_⟩
    rw [addr2binAt_dotted ip h, addr2binAt, if_neg (not_not.mpr hbehind), Option.map_some,
      List.append_nil]

end Reading

/-! ## Writing into memory -/

/-- `net_ipv4_bin2addr` into the memory at a buffer. -/
def bin2addrInto (src : Ipv4Addr) (dst : Nat → UInt8) : Nat → UInt8 :=
  let s := bin2addrLoop (List.ofFn src) (dst, 0)
  Function.update s.1 (s.2 - 1) 0

theorem netIpv4Bin2addr_eq (src : Ipv4Addr) :
    netIpv4Bin2addr src = (List.range 16).map (bin2addrInto src fun _ => 0) := rfl

/-- The buffer holds the dotted form, of at most 15 characters, and its terminating zero; the memory behind
them is as it was. -/
def RendersDotted (ip : Ipv4Addr) (dst : Nat → UInt8) : Prop :=
  HoldsAt (bin2addrInto ip dst) 0 (dotted ip ++ [0]) ∧ (dotted ip).length ≤ 15 ∧
    ∀ x, (dotted ip).length < x → bin2addrInto ip dst x = dst x

section Writing

variable {dst before : Nat → UInt8} {k : Nat}

/-- A turn moves on, over a digit and a dot at least. -/
theorem bin2addrTurn_pos (dst : Nat → UInt8) (k : Nat) (octet : UInt8) :
    k + 1 < (bin2addrTurn dst k octet).2 := by
  unfold bin2addrTurn Bin2addr.digit
  by_cases hhundred : 100 < octet.toNat
  · by_cases hten : 10 < octet.toNat / 10
    · simp only [hhundred, hten, if_true]
      omega
    · simp only [hhundred, hten, if_true, if_false]
      omega
  · by_cases hten : 10 < octet.toNat
    · simp only [hhundred, hten, if_true, if_false]
      omega
    · simp only [hhundred, hten, if_false]
      omega

/-- A turn leaves the characters before its position. -/
theorem bin2addrTurn_below (octet : UInt8) {x : Nat} (hx : x < k) :
    (bin2addrTurn dst k octet).1 x = dst x := by
  have h0 : x ≠ k := hx.ne
  unfold bin2addrTurn Bin2addr.digit
  by_cases hhundred : 100 < octet.toNat
  · by_cases hten : 10 < octet.toNat / 10
    · simp [hhundred, hten, h0, show x ≠ k + 1 by omega, show x ≠ k + 2 by omega,
        show x ≠ k + 3 by omega]
    · simp [hhundred, hten, h0, show x ≠ k + 2 by omega]
  · by_cases hten : 10 < octet.toNat
    · simp [hhundred, hten, h0, show x ≠ k + 1 by omega, show x ≠ k + 2 by omega]
    · simp [hhundred, hten, h0, show x ≠ k + 1 by omega]

/-- An octet that is not rendered is 10 or one from 100 to 109. -/
theorem toNat_of_not_rendered {octet : UInt8} (h : ¬ Rendered octet) :
    octet.toNat = 10 ∨ 100 ≤ octet.toNat ∧ octet.toNat ≤ 109 := by
  by_cases hten : octet = 10
  · exact .inl (congrArg UInt8.toNat hten)
  · have hhundred : 100 ≤ octet ∧ octet ≤ 109 := not_not.mp fun hno => h ⟨hten, hno⟩
    exact .inr ⟨UInt8.le_iff_toNat_le.mp hhundred.1, UInt8.le_iff_toNat_le.mp hhundred.2⟩

/-- An octet that is not rendered gets a zero in the place of its first digit. -/
theorem bin2addrTurn_not_rendered {octet : UInt8} (h : ¬ Rendered octet) :
    (bin2addrTurn dst k octet).1 k = digitChar 0 := by
  unfold bin2addrTurn Bin2addr.digit
  rcases toNat_of_not_rendered h with hten | ⟨hlow, hhigh⟩
  · simp [hten]
  · by_cases hhundred : 100 < octet.toNat
    · have hrest : octet.toNat / 10 = 10 := by omega
      simp [hhundred, hrest]
    · have heq : octet.toNat = 100 := by omega
      simp [heq]

/-- The decimal of an octet that is not rendered starts with a one. -/
theorem decimal_of_not_rendered {octet : UInt8} (h : ¬ Rendered octet) :
    ∃ str, decimal octet = digitChar 1 :: str := by
  unfold decimal
  rcases toNat_of_not_rendered h with hten | ⟨hlow, hhigh⟩
  · simp [hten]
  · simp only [show ¬ octet.toNat < 10 by omega, show ¬ octet.toNat < 100 by omega, if_false]
    rw [show octet.toNat / 100 = 1 by omega]
    exact ⟨_, rfl⟩

/-- The loop leaves the characters before its position, and ends behind them. -/
theorem bin2addrLoop_below (octets : List UInt8) {x : Nat} (hx : x < k) :
    (bin2addrLoop octets (dst, k)).1 x = dst x ∧ x < (bin2addrLoop octets (dst, k)).2 := by
  induction octets generalizing dst k with
  | nil => exact ⟨rfl, hx⟩
  | cons octet octets ih =>
      have hpos := bin2addrTurn_pos dst k octet
      obtain ⟨hrest, hend⟩ := ih (show x < (bin2addrTurn dst k octet).2 by omega)
      exact ⟨hrest.trans (bin2addrTurn_below octet hx), hend⟩

theorem octetsText_cons (octet : UInt8) (octets : List UInt8) :
    octetsText (octet :: octets) = decimal octet ++ [dot] ++ octetsText octets := List.flatMap_cons

/-- An octet that is not rendered leaves a zero where the text has a one. -/
theorem bin2addrLoop_stray {octets text : List UInt8} (hstray : ∃ o ∈ octets, ¬ Rendered o)
    (h : HoldsOver before dst text) (hk : k = text.length) :
    ∃ x, (bin2addrLoop octets (dst, k)).1 x = digitChar 0 ∧
      x + 1 < (bin2addrLoop octets (dst, k)).2 ∧
      (text ++ octetsText octets)[x]? = some (digitChar 1) ∧
      x + 1 < (text ++ octetsText octets).length := by
  induction octets generalizing dst text k with
  | nil => exact absurd hstray (by simp)
  | cons octet octets ih =>
      by_cases hoctet : Rendered octet
      · have hlater : ∃ o ∈ octets, ¬ Rendered o := by
          obtain ⟨o, ho, hno⟩ := hstray
          rcases List.mem_cons.mp ho with rfl | hin
          · exact absurd hoctet hno
          · exact ⟨o, hin, hno⟩
        obtain ⟨hturn, hlength⟩ := bin2addrTurn_rendered h hk hoctet
        rw [octetsText_cons, ← List.append_assoc, ← List.append_assoc]
        exact ih hlater hturn hlength
      · -- The later turns write behind this one.
        obtain ⟨str, hdecimal⟩ := decimal_of_not_rendered hoctet
        have hpos := bin2addrTurn_pos dst k octet
        have hbelow : k < (bin2addrTurn dst k octet).2 := (Nat.lt_succ_self k).trans hpos
        have hkept : (bin2addrLoop (octet :: octets) (dst, k)).1 k = (bin2addrTurn dst k octet).1 k :=
          (bin2addrLoop_below octets hbelow).1
        have hend : k + 1 < (bin2addrLoop (octet :: octets) (dst, k)).2 :=
          (bin2addrLoop_below octets hpos).2
        refine ⟨k, hkept.trans (bin2addrTurn_not_rendered hoctet), hend, ?_, ?_⟩
        · rw [hk, List.getElem?_append_right le_rfl, octetsText_cons, hdecimal]
          simp
        · rw [octetsText_cons, hdecimal, hk]
          simp

/-- The text of the octets of an address is its dotted form, with a dot behind it. -/
theorem octetsText_ofFn (ip : Ipv4Addr) : octetsText (List.ofFn ip) = dotted ip ++ [dot] := by
  simp [octetsText, dotted, List.ofFn_succ]

/-- Writing over the last character. -/
theorem HoldsOver.replace {text : List UInt8} {c : UInt8} (h : HoldsOver before dst (text ++ [c]))
    (d : UInt8) : HoldsOver before (Function.update dst text.length d) (text ++ [d]) := by
  intro x
  rcases lt_trichotomy x text.length with hlt | rfl | hgt
  · rw [Function.update_of_ne hlt.ne, h x, List.getElem?_append_left hlt,
      List.getElem?_append_left hlt]
  · rw [Function.update_self, List.getElem?_append_right le_rfl]
    simp
  · have hlong : ∀ e : UInt8, (text ++ [e])[x]? = none := by
      intro e
      rw [List.getElem?_eq_none_iff, List.length_append, List.length_singleton]
      omega
    rw [Function.update_of_ne hgt.ne', h x, hlong c, hlong d]

/-- The buffer after an address whose octets are all rendered. -/
theorem bin2addrInto_rendered {ip : Ipv4Addr} (hip : ∀ i, Rendered (ip i)) (dst : Nat → UInt8) :
    HoldsOver dst (bin2addrInto ip dst) (dotted ip ++ [0]) := by
  have hempty : HoldsOver dst dst [] := fun x => rfl
  have hoctets : ∀ o ∈ List.ofFn ip, Rendered o := by
    intro o ho
    obtain ⟨i, rfl⟩ := List.mem_ofFn.mp ho
    exact hip i
  obtain ⟨hloop, hlength⟩ := bin2addrLoop_rendered hoctets hempty (k := 0) rfl
  rw [List.nil_append, octetsText_ofFn] at hloop hlength
  have hend : (bin2addrLoop (List.ofFn ip) (dst, 0)).2 - 1 = (dotted ip).length := by
    rw [hlength]
    simp
  rw [bin2addrInto, hend]
  exact hloop.replace 0

/-- The buffer holds the dotted form just when all octets are rendered. -/
theorem bin2addrInto_iff (ip : Ipv4Addr) (dst : Nat → UInt8) :
    RendersDotted ip dst ↔ ∀ i, Rendered (ip i) := by
  constructor
  · rintro ⟨htext, -, -⟩
    by_contra hnot
    push Not at hnot
    obtain ⟨i, hi⟩ := hnot
    have hempty : HoldsOver dst dst [] := fun x => rfl
    obtain ⟨x, hwritten, hbefore, hright, hinside⟩ :=
      bin2addrLoop_stray ⟨ip i, List.mem_ofFn.mpr ⟨i, rfl⟩, hi⟩ hempty (k := 0) rfl
    rw [List.nil_append, octetsText_ofFn] at hright hinside
    rw [List.length_append, List.length_singleton] at hinside
    rw [List.getElem?_append_left (by omega)] at hright
    have hchar := htext x (digitChar 1) (by rw [List.getElem?_append_left (by omega), hright])
    rw [Nat.zero_add, bin2addrInto, Function.update_of_ne (by omega), hwritten] at hchar
    exact absurd hchar (by decide)
  · intro hip
    have hbuffer := bin2addrInto_rendered hip dst
    refine ⟨fun j c hj => ?_, Nat.le_of_lt_succ (dotted_length_lt ip), fun x hx => ?_⟩
    · rw [Nat.zero_add, hbuffer j, hj, Option.getD_some]
    · rw [hbuffer x, List.getElem?_eq_none, Option.getD_none]
      rw [List.length_append, List.length_singleton]
      omega

end Writing

/-! ## There and back -/

/-- The text that is written for an address is its dotted form, and is read back as the address. -/
def DottedRoundTrip (ip : Ipv4Addr) (dst : Nat → UInt8) : Prop :=
  RendersDotted ip dst ∧ ∃ n, addr2binAt (bin2addrInto ip dst) n 0 = some (List.ofFn ip)

/-- An address goes into text and back just when it has none of the octets 10 and 100 to 109 and the byte
behind the text is zero. -/
theorem dotted_round_trip_iff (ip : Ipv4Addr) (dst : Nat → UInt8) :
    DottedRoundTrip ip dst ↔ (∀ i, Rendered (ip i)) ∧ dst ((dotted ip).length + 1) = 0 := by
  rw [DottedRoundTrip, ← bin2addrInto_iff ip dst]
  refine and_congr_right fun hrenders => ?_
  obtain ⟨htext, -, hbehind⟩ := hrenders
  rw [addr2binAt_dotted_iff ip htext, hbehind _ (Nat.lt_succ_self _)]

/-- An address of a private network, whose first octet is ten. -/
def tenAddr : Ipv4Addr := ![10, 0, 0, 1]

/-- The text of the address starts with a zero, in a buffer of zeros too. -/
theorem tenAddr_not_round_trip :
    dotted tenAddr = [49, 48, 46, 48, 46, 48, 46, 49] ∧
      bin2addrInto tenAddr (fun _ => 0) 0 = 48 ∧ ¬ DottedRoundTrip tenAddr fun _ => 0 := by
  have hwritten : bin2addrInto tenAddr (fun _ => 0) 0 = 48 := by decide
  refine ⟨by decide, hwritten, fun ⟨⟨htext, _⟩, _⟩ => ?_⟩
  have hright := htext 0 49 (by decide)
  rw [Nat.zero_add, hwritten] at hright
  exact absurd hright (by decide)

end Net
end Micael

import Micael.Foundation.Memory
import Micael.Lib.HashmapInsert
import Micael.Net.Ipv4

/-!
# Address resolution

`arp_resolve` enters the text of an address into a table of open requests and sends a request.
When a reply comes, `arp_handle_pkt` renders the sender's address as text, looks for the request,
and hands a copy of the sender's hardware address to the cache of address pairs; that is where
`netdev_resolve_address` looks when a packet is sent.

The parts do not fit together in three places.  `net_ipv4_bin2addr` renders the octets 10 and 100 to
109 wrongly.  `netdev_add_ipv4_addr_pair` builds its key with the first octet on top, and
`netdev_resolve_address` reads it with the first octet at the bottom.  And the cache is
given six bytes where a `mac_t` is expected, whose bytes start behind a pointer.

The block that `kmemdup` gets from the heap and memory as it is then are arguments.  The
flag `dhcp_done` is never set and is left out.

Main results:

- Theorem {lit}`netIpv4Addr2bin_dotted`: the request asks for the address that was given as text.
- Theorem {lit}`bin2addr_eq_dotted`: which addresses are rendered as they were given.
- Theorem {lit}`arp_learning_iff`: the lookup after a reply gives the sender's hardware address exactly
  when some memory that was not written holds it already.
-/

namespace Micael
namespace Net

open Foundation Lib

/-- The four bytes of an address, in the order in which they are sent. -/
abbrev Ipv4Addr := Fin 4 → UInt8

/-- The six bytes of a hardware address. -/
abbrev HwAddr := Fin 6 → UInt8

/-! ## The text of an address -/

/-- The character of a digit. -/
def digitChar (n : Nat) : UInt8 := 48 + UInt8.ofNat n

/-- The character `'.'`. -/
def dot : UInt8 := 46

/-- The characters before the terminating zero. -/
def cstring (str : List UInt8) : List UInt8 := str.takeWhile (· ≠ 0)

/-- The inner loop of `net_ipv4_addr2bin`: the value, and what is left of the string. -/
def addr2binOctet : UInt8 → List UInt8 → UInt8 × List UInt8
  | val, [] => (val, [])
  | val, c :: str => if c ≠ 0 ∧ c ≠ dot then addr2binOctet (val * 10 + (c - 48)) str else (val, c :: str)

/-- The outer loop of `net_ipv4_addr2bin`.  It steps over the character that ended an octet,
also when that is the terminating zero, and reads on behind it. -/
def addr2binLoop : Nat → List UInt8 → List UInt8
  | 0, _ => []
  | _ + 1, [] => []
  | n + 1, c :: str =>
      if c ≠ 0 then
        (addr2binOctet 0 (c :: str)).1 :: addr2binLoop n ((addr2binOctet 0 (c :: str)).2.drop 1)
      else []

/-- `net_ipv4_addr2bin`: the bytes it writes, for the bytes of memory at `src`. -/
def netIpv4Addr2bin (src : List UInt8) : List UInt8 := addr2binLoop src.length src

/-- The buffer, the position in it, the rest of the number and the digits written. -/
structure Bin2addr where
  dst : Nat → UInt8
  k : Nat
  val : Nat
  p : Nat

/-- Write the last digit of the number `off` characters behind the position. -/
def Bin2addr.digit (s : Bin2addr) (off : Nat) : Bin2addr :=
  { s with
    dst := Function.update s.dst (s.k + off) (digitChar (s.val % 10))
    val := s.val / 10
    p := s.p + 1 }

/-- One turn of `net_ipv4_bin2addr`. -/
def bin2addrTurn (dst : Nat → UInt8) (k : Nat) (octet : UInt8) : (Nat → UInt8) × Nat :=
  let s : Bin2addr := ⟨dst, k, octet.toNat, 0⟩
  let s := if 100 < s.val then s.digit 2 else s
  let s := if 10 < s.val then s.digit 1 else s
  let s := s.digit 0
  (Function.update s.dst (s.k + s.p) dot, s.k + s.p + 1)

/-- The loop of `net_ipv4_bin2addr`. -/
def bin2addrLoop : List UInt8 → (Nat → UInt8) × Nat → (Nat → UInt8) × Nat
  | [], s => s
  | octet :: octets, s => bin2addrLoop octets (bin2addrTurn s.1 s.2 octet)

/-- `net_ipv4_bin2addr` into a buffer of 16 zeros. -/
def netIpv4Bin2addr (src : Ipv4Addr) : List UInt8 :=
  let s := bin2addrLoop (List.ofFn src) (fun _ => 0, 0)
  (List.range 16).map (Function.update s.1 (s.2 - 1) 0)

/-- An octet in decimal. -/
def decimal (octet : UInt8) : List UInt8 :=
  let n := octet.toNat
  if n < 10 then [digitChar n]
  else if n < 100 then [digitChar (n / 10), digitChar (n % 10)]
  else [digitChar (n / 100), digitChar (n / 10 % 10), digitChar (n % 10)]

/-- The dotted form of an address. -/
def dotted (ip : Ipv4Addr) : List UInt8 :=
  decimal (ip 0) ++ dot :: decimal (ip 1) ++ dot :: decimal (ip 2) ++ dot :: decimal (ip 3)

/-- An octet that `net_ipv4_bin2addr` renders in decimal. -/
def Rendered (octet : UInt8) : Prop := octet ≠ 10 ∧ ¬ (100 ≤ octet ∧ octet ≤ 109)

instance (octet : UInt8) : Decidable (Rendered octet) := inferInstanceAs (Decidable (_ ∧ _))

/-! ### Reading -/

theorem digitChar_sub (n : Nat) : digitChar n - 48 = UInt8.ofNat n := by
  rw [digitChar, UInt8.add_comm, UInt8.add_sub_cancel]

/-- A digit is neither the end of the string nor a dot. -/
theorem digitChar_ne {n : Nat} (hn : n < 10) : digitChar n ≠ 0 ∧ digitChar n ≠ dot := by
  interval_cases n <;> decide

theorem addr2binOctet_digit {n : Nat} (hn : n < 10) (val : UInt8) (str : List UInt8) :
    addr2binOctet val (digitChar n :: str) = addr2binOctet (val * 10 + UInt8.ofNat n) str := by
  rw [addr2binOctet, if_pos (digitChar_ne hn), digitChar_sub]

/-- A decimal is read up to the character that ends it. -/
theorem addr2binOctet_decimal (octet : UInt8) {c : UInt8} (str : List UInt8)
    (hc : ¬ (c ≠ 0 ∧ c ≠ dot)) :
    addr2binOctet 0 (decimal octet ++ c :: str) = (octet, c :: str) := by
  have hlt : octet.toNat < 256 := octet.toNat_lt
  have hend : ∀ val, addr2binOctet val (c :: str) = (val, c :: str) := by
    intro val
    rw [addr2binOctet, if_neg hc]
  unfold decimal
  by_cases hone : octet.toNat < 10
  · simp only [if_pos hone, List.cons_append, List.nil_append, addr2binOctet_digit hone, hend]
    simp
  · by_cases htwo : octet.toNat < 100
    · simp only [if_neg hone, if_pos htwo, List.cons_append, List.nil_append]
      rw [addr2binOctet_digit (by omega), addr2binOctet_digit (by omega), hend]
      congr 1
      apply UInt8.toNat_inj.mp
      simp only [UInt8.toNat_add, UInt8.toNat_mul, UInt8.toNat_ofNat']
      simp
      omega
    · simp only [if_neg hone, if_neg htwo, List.cons_append, List.nil_append]
      rw [addr2binOctet_digit (by omega), addr2binOctet_digit (by omega),
        addr2binOctet_digit (by omega), hend]
      have hhundreds : octet.toNat / 10 / 10 = octet.toNat / 100 := Nat.div_div_eq_div_mul ..
      congr 1
      apply UInt8.toNat_inj.mp
      simp only [UInt8.toNat_add, UInt8.toNat_mul, UInt8.toNat_ofNat']
      simp
      omega

/-- A decimal starts with a digit. -/
theorem decimal_eq_cons (octet : UInt8) : ∃ c str, decimal octet = c :: str ∧ c ≠ 0 := by
  have hlt : octet.toNat < 256 := octet.toNat_lt
  unfold decimal
  by_cases hone : octet.toNat < 10
  · simp only [if_pos hone]
    exact ⟨_, _, rfl, (digitChar_ne hone).1⟩
  · by_cases htwo : octet.toNat < 100
    · simp only [if_neg hone, if_pos htwo]
      exact ⟨_, _, rfl, (digitChar_ne (by omega)).1⟩
    · simp only [if_neg hone, if_neg htwo]
      exact ⟨_, _, rfl, (digitChar_ne (by omega)).1⟩

/-- One octet of a text. -/
theorem addr2binLoop_decimal (n : Nat) (octet : UInt8) {c : UInt8} (str : List UInt8)
    (hc : ¬ (c ≠ 0 ∧ c ≠ dot)) :
    addr2binLoop (n + 1) (decimal octet ++ c :: str) = octet :: addr2binLoop n str := by
  obtain ⟨d, rest, hdecimal, hd⟩ := decimal_eq_cons octet
  have hoctet := addr2binOctet_decimal octet str hc
  rw [hdecimal, List.cons_append] at hoctet ⊢
  rw [addr2binLoop, if_pos hd, hoctet]
  rfl

/-- The four octets of a dotted address are read back, and then what stands behind it. -/
theorem addr2binLoop_dotted (n : Nat) (ip : Ipv4Addr) (str : List UInt8) :
    addr2binLoop (n + 4) (dotted ip ++ 0 :: str) =
      [ip 0, ip 1, ip 2, ip 3] ++ addr2binLoop n str := by
  have hdot : ¬ (dot ≠ 0 ∧ dot ≠ dot) := by simp
  have hzero : ¬ ((0 : UInt8) ≠ 0 ∧ (0 : UInt8) ≠ dot) := by simp
  simp only [dotted, List.append_assoc, List.cons_append]
  rw [addr2binLoop_decimal _ _ _ hdot, addr2binLoop_decimal _ _ _ hdot,
    addr2binLoop_decimal _ _ _ hdot, addr2binLoop_decimal _ _ _ hzero]
  rfl

/-- The request asks for the address whose dotted form is given, if the byte behind the
string is zero. -/
theorem netIpv4Addr2bin_dotted (ip : Ipv4Addr) :
    netIpv4Addr2bin (dotted ip ++ [0, 0]) = [ip 0, ip 1, ip 2, ip 3] := by
  have hlength : ∃ n, (dotted ip ++ [0, 0]).length = n + 4 := by
    refine ⟨(dotted ip ++ [0, 0]).length - 4, ?_⟩
    simp only [dotted, List.length_append, List.length_cons, List.length_nil]
    omega
  obtain ⟨n, hn⟩ := hlength
  rw [netIpv4Addr2bin, hn, addr2binLoop_dotted]
  cases n with
  | zero => rfl
  | succ n => rfl

/-! ### Rendering -/

/-- The buffer holds the text and zeros behind it. -/
def HoldsText (dst : Nat → UInt8) (text : List UInt8) : Prop := ∀ x, dst x = (text[x]?).getD 0

/-- The buffer holds the text, and behind it what was there before. -/
def HoldsOver (before dst : Nat → UInt8) (text : List UInt8) : Prop :=
  ∀ x, dst x = (text[x]?).getD (before x)

/-- Writing behind the text appends a character. -/
theorem HoldsOver.snoc {before dst : Nat → UInt8} {text : List UInt8} {k : Nat}
    (h : HoldsOver before dst text) (hk : k = text.length) (c : UInt8) :
    HoldsOver before (Function.update dst k c) (text ++ [c]) := by
  subst hk
  intro x
  rcases lt_trichotomy x text.length with hlt | rfl | hgt
  · rw [Function.update_of_ne hlt.ne, h x, List.getElem?_append_left hlt]
  · rw [Function.update_self, List.getElem?_append_right le_rfl]
    simp
  · rw [Function.update_of_ne hgt.ne', h x, List.getElem?_eq_none hgt.le, List.getElem?_eq_none]
    simp
    omega

theorem Rendered.toNat {octet : UInt8} (h : Rendered octet) :
    octet.toNat ≠ 10 ∧ ¬ (100 ≤ octet.toNat ∧ octet.toNat ≤ 109) := by
  obtain ⟨hten, hhundred⟩ := h
  constructor
  · intro heq
    exact hten (UInt8.toNat_inj.mp heq)
  · rintro ⟨hlow, hhigh⟩
    exact hhundred ⟨UInt8.le_iff_toNat_le.mpr hlow, UInt8.le_iff_toNat_le.mpr hhigh⟩

/-- A turn for an octet that is rendered appends its decimal and a dot. -/
theorem bin2addrTurn_rendered {before dst : Nat → UInt8} {text : List UInt8} {k : Nat}
    (h : HoldsOver before dst text) (hk : k = text.length) {octet : UInt8} (hoctet : Rendered octet) :
    HoldsOver before (bin2addrTurn dst k octet).1 (text ++ decimal octet ++ [dot]) ∧
      (bin2addrTurn dst k octet).2 = (text ++ decimal octet ++ [dot]).length := by
  obtain ⟨hten, hhundred⟩ := hoctet.toNat
  have hlt : octet.toNat < 256 := octet.toNat_lt
  by_cases hone : octet.toNat < 10
  · have hdecimal : decimal octet = [digitChar (octet.toNat % 10)] := by
      rw [decimal, if_pos hone, Nat.mod_eq_of_lt hone]
    have hturn : bin2addrTurn dst k octet =
        (Function.update (Function.update dst k (digitChar (octet.toNat % 10))) (k + 1) dot,
          k + 2) := by
      simp [bin2addrTurn, Bin2addr.digit, show ¬ 100 < octet.toNat by omega,
        show ¬ 10 < octet.toNat by omega]
    rw [hturn, hdecimal]
    constructor
    · exact (h.snoc hk _).snoc (by simp [hk]) _
    · simp [hk]
  · by_cases htwo : octet.toNat < 100
    · have hdecimal : decimal octet =
          [digitChar (octet.toNat / 10 % 10)] ++ [digitChar (octet.toNat % 10)] := by
        rw [decimal, if_neg hone, if_pos htwo, Nat.mod_eq_of_lt (show octet.toNat / 10 < 10 by omega)]
        rfl
      have hturn : bin2addrTurn dst k octet =
          (Function.update (Function.update (Function.update dst k
            (digitChar (octet.toNat / 10 % 10))) (k + 1) (digitChar (octet.toNat % 10))) (k + 2) dot,
            k + 3) := by
        rw [Function.update_comm (show k ≠ k + 1 by omega)]
        simp [bin2addrTurn, Bin2addr.digit, show ¬ 100 < octet.toNat by omega,
          show 10 < octet.toNat by omega]
      rw [hturn, hdecimal, ← List.append_assoc]
      constructor
      · exact ((h.snoc hk _).snoc (by simp [hk]) _).snoc (by simp [hk]) _
      · simp [hk]
    · have hdecimal : decimal octet = [digitChar (octet.toNat / 10 / 10 % 10)] ++
          [digitChar (octet.toNat / 10 % 10)] ++ [digitChar (octet.toNat % 10)] := by
        rw [decimal, if_neg hone, if_neg htwo, Nat.div_div_eq_div_mul,
          Nat.mod_eq_of_lt (show octet.toNat / (10 * 10) < 10 by omega)]
        rfl
      have hturn : bin2addrTurn dst k octet =
          (Function.update (Function.update (Function.update (Function.update dst k
            (digitChar (octet.toNat / 10 / 10 % 10))) (k + 1) (digitChar (octet.toNat / 10 % 10)))
            (k + 2) (digitChar (octet.toNat % 10))) (k + 3) dot, k + 4) := by
        rw [Function.update_comm (show k + 1 ≠ k + 2 by omega),
          Function.update_comm (show k ≠ k + 2 by omega),
          Function.update_comm (show k ≠ k + 1 by omega)]
        simp [bin2addrTurn, Bin2addr.digit, show 100 < octet.toNat by omega,
          show 10 < octet.toNat / 10 by omega]
      rw [hturn, hdecimal, ← List.append_assoc, ← List.append_assoc]
      constructor
      · exact (((h.snoc hk _).snoc (by simp [hk]) _).snoc (by simp [hk]) _).snoc (by simp [hk]) _
      · simp [hk]

/-- The text of a list of octets, with a dot behind each. -/
def octetsText (octets : List UInt8) : List UInt8 := octets.flatMap fun o => decimal o ++ [dot]

/-- The loop renders all octets. -/
theorem bin2addrLoop_rendered {octets : List UInt8} (hoctets : ∀ o ∈ octets, Rendered o)
    {before dst : Nat → UInt8} {text : List UInt8} {k : Nat} (h : HoldsOver before dst text)
    (hk : k = text.length) :
    HoldsOver before (bin2addrLoop octets (dst, k)).1 (text ++ octetsText octets) ∧
      (bin2addrLoop octets (dst, k)).2 = (text ++ octetsText octets).length := by
  induction octets generalizing dst text k with
  | nil => simpa [octetsText, bin2addrLoop] using ⟨h, hk⟩
  | cons octet octets ih =>
      obtain ⟨hturn, hlength⟩ := bin2addrTurn_rendered h hk (hoctets octet (.head _))
      have hrest := ih (fun o ho => hoctets o (.tail _ ho)) hturn hlength
      simpa [octetsText, bin2addrLoop] using hrest

/-- The terminating zero replaces the last character. -/
theorem HoldsText.terminate {dst : Nat → UInt8} {text : List UInt8} {c : UInt8}
    (h : HoldsText dst (text ++ [c])) : HoldsText (Function.update dst text.length 0) text := by
  intro x
  rcases lt_trichotomy x text.length with hlt | rfl | hgt
  · rw [Function.update_of_ne hlt.ne, h x, List.getElem?_append_left hlt]
  · rw [Function.update_self, List.getElem?_eq_none le_rfl]
    rfl
  · rw [Function.update_of_ne hgt.ne', h x, List.getElem?_eq_none hgt.le, List.getElem?_eq_none]
    simp
    omega

/-- The string in a buffer that is longer than the text. -/
theorem HoldsText.cstring {dst : Nat → UInt8} {text : List UInt8} {n : Nat} (h : HoldsText dst text)
    (hchars : ∀ c ∈ text, c ≠ 0) (hn : text.length < n) :
    cstring ((List.range n).map dst) = text := by
  have hbuffer : (List.range n).map dst = text ++ 0 :: List.replicate (n - text.length - 1) 0 := by
    apply List.ext_getElem?
    intro x
    by_cases hx : x < n
    · simp only [List.getElem?_map, List.getElem?_range hx, Option.map_some, h x]
      by_cases hin : x < text.length
      · rw [List.getElem?_append_left hin, List.getElem?_eq_getElem hin]
        rfl
      · rw [List.getElem?_eq_none (by omega), List.getElem?_append_right (by omega),
          ← List.replicate_succ, List.getElem?_replicate, if_pos (by omega)]
        rfl
    · rw [List.getElem?_eq_none (by simpa using hx), List.getElem?_eq_none]
      simp
      omega
  rw [hbuffer, Net.cstring, List.takeWhile_append_of_pos]
  · simp
  · intro c hc
    simpa using hchars c hc

theorem decimal_chars (octet : UInt8) : ∀ c ∈ decimal octet, c ≠ 0 := by
  have hlt : octet.toNat < 256 := octet.toNat_lt
  have hdigit : ∀ n, n < 10 → digitChar n ≠ 0 := fun n hn => (digitChar_ne hn).1
  intro c hc
  unfold decimal at hc
  by_cases hone : octet.toNat < 10
  · simp only [if_pos hone, List.mem_singleton] at hc
    exact hc ▸ hdigit _ hone
  · by_cases htwo : octet.toNat < 100
    · simp only [if_neg hone, if_pos htwo, List.mem_cons, List.not_mem_nil, or_false] at hc
      rcases hc with rfl | rfl
      · exact hdigit _ (by omega)
      · exact hdigit _ (by omega)
    · simp only [if_neg hone, if_neg htwo, List.mem_cons, List.not_mem_nil, or_false] at hc
      rcases hc with rfl | rfl | rfl
      · exact hdigit _ (by omega)
      · exact hdigit _ (by omega)
      · exact hdigit _ (by omega)

theorem decimal_length_le (octet : UInt8) : (decimal octet).length ≤ 3 := by
  unfold decimal
  by_cases hone : octet.toNat < 10
  · simp [hone]
  · by_cases htwo : octet.toNat < 100 <;> simp [hone, htwo]

theorem dotted_chars (ip : Ipv4Addr) : ∀ c ∈ dotted ip, c ≠ 0 := by
  intro c hc
  simp only [dotted, List.mem_append, List.mem_cons] at hc
  have hdot : dot ≠ 0 := by decide
  rcases hc with ((hc | rfl | hc) | rfl | hc) | rfl | hc
  · exact decimal_chars _ c hc
  · exact hdot
  · exact decimal_chars _ c hc
  · exact hdot
  · exact decimal_chars _ c hc
  · exact hdot
  · exact decimal_chars _ c hc

theorem dotted_length_lt (ip : Ipv4Addr) : (dotted ip).length < 16 := by
  have h0 := decimal_length_le (ip 0)
  have h1 := decimal_length_le (ip 1)
  have h2 := decimal_length_le (ip 2)
  have h3 := decimal_length_le (ip 3)
  simp only [dotted, List.length_append, List.length_cons]
  omega

/-- An address without the octets 10 and 100 to 109 is rendered in its dotted form. -/
theorem bin2addr_eq_dotted {ip : Ipv4Addr} (hip : ∀ i, Rendered (ip i)) :
    cstring (netIpv4Bin2addr ip) = dotted ip := by
  have hempty : HoldsOver (fun _ => 0) (fun _ => 0) [] := fun x => rfl
  have hoctets : ∀ o ∈ List.ofFn ip, Rendered o := by
    intro o ho
    obtain ⟨i, rfl⟩ := List.mem_ofFn.mp ho
    exact hip i
  obtain ⟨hloop, hlength⟩ := bin2addrLoop_rendered hoctets hempty (k := 0) rfl
  have htext : [] ++ octetsText (List.ofFn ip) = dotted ip ++ [dot] := by
    simp [octetsText, dotted, List.ofFn_succ]
  rw [htext] at hloop hlength
  have hend : (bin2addrLoop (List.ofFn ip) (fun _ => 0, 0)).2 - 1 = (dotted ip).length := by
    rw [hlength]
    simp
  rw [netIpv4Bin2addr]
  simp only [hend]
  have hbuffer : HoldsText _ (dotted ip ++ [dot]) := hloop
  exact hbuffer.terminate.cstring (dotted_chars ip) (dotted_length_lt ip)

/-! ## The cache of address pairs -/

/-- The address and request caches of `netdev.c` and `arp.c`.  Nothing is ever removed from the
cache of address pairs; its pointers are those of what should be a `mac_t`. -/
structure Netdev where
  addrs : Hashmap
  grown : addrs.Grown
  /-- `netdev_info.dhcp`, or null. -/
  dhcp : Nat
  ourIp : Ipv4Addr
  mac : HwAddr
  /-- `requests`, which the first request allocates. -/
  requests : Option Hashmap

/-- The offset of `b` in a `mac_t`, behind the pointer `addr`. -/
def macOffset : Nat := 8

/-- The offset of `mac` in a `dhcp_info_t`. -/
def dhcpMacOffset : Nat := 24

/-- The six bytes `b` of the `mac_t` at `ptr`. -/
def macBytes (mem : Memory) (ptr : Nat) : HwAddr := fun i => mem (ptr + macOffset + i)

/-- The key that `netdev_add_ipv4_addr_pair` builds: the first octet on top. -/
def builtKey (ip : Ipv4Addr) : UInt32 :=
  UInt32.ofNat (2 ^ 24 * (ip 0).toNat + 2 ^ 16 * (ip 1).toNat + 2 ^ 8 * (ip 2).toNat + (ip 3).toNat)

/-- The key that is read through a pointer to the four bytes: the first octet at the bottom. -/
def readKey (ip : Ipv4Addr) : UInt32 :=
  UInt32.ofNat ((ip 0).toNat + 2 ^ 8 * (ip 1).toNat + 2 ^ 16 * (ip 2).toNat + 2 ^ 24 * (ip 3).toNat)

/-- Insert a pair into the cache; an error is only reported. -/
def Netdev.insertPair (net : Netdev) (key : UInt32) (hw : Nat) : Netdev :=
  { net with
    addrs := (hmInsert hmHashNum net.addrs key hw).2
    grown := net.grown.insert (Prod.eta _).symm }

/-- `netdev_add_ipv4_addr_pair`. -/
def netdevAddIpv4AddrPair (net : Netdev) (hw : Nat) (ipv4 : Ipv4Addr) : Netdev :=
  net.insertPair (builtKey ipv4) hw

/-- `netdev_init`, as far as it concerns the cache: the broadcast addresses. -/
def netdevInit (ethBroadcast : Nat) (mac : HwAddr) : Netdev :=
  Netdev.insertPair ⟨hmAllocHashmap 32, grown_alloc 32, 0, fun _ => 0, mac, none⟩
    (readKey fun _ => 255) ethBroadcast

/-- `netdev_add_dhcp_info` for a copy of the information at `info`. -/
def netdevAddDhcpInfo (net : Netdev) (copy info : Nat) (addr router : Ipv4Addr) : Netdev :=
  Netdev.insertPair { net with dhcp := copy, ourIp := addr } (readKey router) (info + dhcpMacOffset)

/-- `netdev_resolve_address`: no `mac_t` when nothing is known and there is no router. -/
def netdevResolveAddress (net : Netdev) (ip : Ipv4Addr) : Option Nat :=
  if hmGet hmHashNum net.addrs (readKey ip) ≠ 0 then
    some (hmGet hmHashNum net.addrs (readKey ip))
  else if net.dhcp = 0 then
    none
  else
    some (net.dhcp + dhcpMacOffset)

/-! ## Requests and replies -/

/-- `arp_ipv4_t`. -/
structure ArpIpv4 where
  srchw : HwAddr
  srcpr : Ipv4Addr
  dsthw : HwAddr
  dstpr : Ipv4Addr

/-- `arp_pkt_t` with the payload of an IPv4 packet; the words are in network order. -/
structure ArpPkt where
  htype : Nat
  ptype : Nat
  hlen : Nat
  plen : Nat
  opcode : Nat
  payload : ArpIpv4

/-- A frame that is sent: the destination and the packet. -/
structure ArpFrame where
  dst : HwAddr
  arp : ArpPkt

def arpRequest : Nat := 1
def arpReply : Nat := 2

/-- The header that both senders fill in. -/
def arpHeader (opcode : Nat) (payload : ArpIpv4) : ArpPkt where
  htype := n2h16 1
  ptype := n2h16 0x0800
  hlen := 6
  plen := 4
  opcode := n2h16 opcode
  payload := payload

/-- A request that `arp_resolve` sends, and the octets that were written behind the block of its frame: those behind
the fourth of the target. -/
structure ArpQuery where
  frame : ArpFrame
  behind : List UInt8

/-- `arp_resolve` for the bytes of memory at `addr`.  The destination of the frame is left zero. -/
def arpResolve (net : Netdev) (addr : Nat) (str : List UInt8) : Netdev × Option ArpQuery :=
  if addr = 0 then (net, none)
  else
    match hmInsert hmHashStr (net.requests.getD (hmAllocHashmap 8)) (cstring str) addr with
    | (some _, requests) => ({ net with requests := some requests }, none)
    | (none, requests) =>
        let target := netIpv4Addr2bin str
        ({ net with requests := some requests },
          some ⟨⟨fun _ => 0, arpHeader arpRequest
            ⟨net.mac, fun _ => 0, fun _ => 0, fun i => (target[i.val]?).getD 0⟩⟩, target.drop 4⟩)

/-- `kmemdup` of six bytes into the block at `block`. -/
def dupHw (mem : Memory) (block : Nat) (hw : HwAddr) : Memory := fun x =>
  if h : block ≤ x ∧ x < block + 6 then hw ⟨x - block, by omega⟩ else mem x

/-- The lookup of a request; there may be no table yet. -/
def Netdev.findRequest (net : Netdev) (text : List UInt8) : Nat :=
  match net.requests with
  | none => 0
  | some requests => hmGet hmHashStr requests text

/-- The removal of a request. -/
def Netdev.removeRequest (net : Netdev) (text : List UInt8) : Except Halt Netdev :=
  match net.requests with
  | none => .ok net
  | some requests => do
      let removed ← hmRemove hmHashStr requests text
      pure { net with requests := some removed.2 }

/-- What `arp_handle_pkt` returns, the state and memory it leaves, and the frames it sends. -/
structure ArpHandled where
  ret : Option Errno
  net : Netdev
  mem : Memory
  sent : List ArpFrame

/-- `arp_handle_pkt`; `block` is what the heap gives `kmemdup`, and `mem` is memory then. -/
def arpHandlePkt (net : Netdev) (mem : Memory) (block : Nat) (pkt : ArpPkt) :
    Except Halt ArpHandled :=
  if n2h16 pkt.opcode = arpRequest then
    if net.ourIp ≠ pkt.payload.dstpr then .ok ⟨some .enosys, net, mem, []⟩
    else
      .ok ⟨none, net, mem, [⟨pkt.payload.srchw, arpHeader arpReply
        ⟨net.mac, net.ourIp, pkt.payload.srchw, pkt.payload.srcpr⟩⟩]⟩
  else if n2h16 pkt.opcode = arpReply ∧ pkt.plen = 4 then
    let addr := cstring (netIpv4Bin2addr pkt.payload.srcpr)
    if net.findRequest addr ≠ 0 then do
      let net ← (netdevAddIpv4AddrPair net block pkt.payload.srcpr).removeRequest addr
      pure ⟨none, net, dupHw mem block pkt.payload.srchw, []⟩
    else
      .ok ⟨none, net, mem, []⟩
  else
    .ok ⟨some .enotsup, net, mem, []⟩

/-! ## What is learned from a reply -/

/-- The packet is a reply with this sender. -/
structure ArpPkt.IsReply (pkt : ArpPkt) (ip : Ipv4Addr) (hw : HwAddr) : Prop where
  opcode : n2h16 pkt.opcode = arpReply
  plen : pkt.plen = 4
  srcpr : pkt.payload.srcpr = ip
  srchw : pkt.payload.srchw = hw

/-- After a request for the address in {lit}`str` and this reply, the lookup of {lit}`ip` gives
{lit}`hw`. -/
def Learns (net : Netdev) (addr : Nat) (str : List UInt8) (mem : Memory) (block : Nat)
    (pkt : ArpPkt) (ip : Ipv4Addr) (hw : HwAddr) : Prop :=
  ∃ handled, arpHandlePkt (arpResolve net addr str).1 mem block pkt = .ok handled ∧
    ∃ ptr, netdevResolveAddress handled.net ip = some ptr ∧ macBytes handled.mem ptr = hw

/-- The text of the reply's sender is that of an open request, as far as its hash tells. -/
def Netdev.Awaits (net : Netdev) (addr : Nat) (str : List UInt8) (ip : Ipv4Addr) : Prop :=
  (arpResolve net addr str).1.findRequest (cstring (netIpv4Bin2addr ip)) ≠ 0

instance (net : Netdev) (addr : Nat) (str : List UInt8) (ip : Ipv4Addr) :
    Decidable (net.Awaits addr str ip) :=
  inferInstanceAs (Decidable (_ ≠ _))

/-- The address reads the same backwards. -/
def Mirrored (ip : Ipv4Addr) : Prop := ip 0 = ip 3 ∧ ip 1 = ip 2

instance (ip : Ipv4Addr) : Decidable (Mirrored ip) := inferInstanceAs (Decidable (_ ∧ _))

/-- The six bytes are where the lookup will find them: in the `mac_t` of an entry that was there
before; else, when the new entry can be found, behind the six bytes of the new block; else in
the record of the router. -/
def HeldBefore (net : Netdev) (addr : Nat) (str : List UInt8) (mem : Memory) (block : Nat)
    (ip : Ipv4Addr) (hw : HwAddr) : Prop :=
  let copied := if net.Awaits addr str ip then dupHw mem block hw else mem
  if hmGet hmHashNum net.addrs (readKey ip) ≠ 0 then
    macBytes copied (hmGet hmHashNum net.addrs (readKey ip)) = hw
  else if net.Awaits addr str ip ∧ Mirrored ip then
    macBytes mem block = hw
  else
    net.dhcp ≠ 0 ∧ macBytes copied (net.dhcp + dhcpMacOffset) = hw

/-- The two keys of an address agree when it reads the same backwards. -/
theorem readKey_eq_builtKey_iff (ip : Ipv4Addr) : readKey ip = builtKey ip ↔ Mirrored ip := by
  have h0 := (ip 0).toNat_lt
  have h1 := (ip 1).toNat_lt
  have h2 := (ip 2).toNat_lt
  have h3 := (ip 3).toNat_lt
  rw [Mirrored, ← UInt8.toNat_inj, ← UInt8.toNat_inj, readKey, builtKey, ← UInt32.toNat_inj,
    UInt32.toNat_ofNat', UInt32.toNat_ofNat']
  omega

/-- The number with the reserved hash does not read the same backwards. -/
theorem Mirrored.valid {ip : Ipv4Addr} (h : Mirrored ip) : hmHashNum (builtKey ip) ≠ uint32Max := by
  have h0 := (ip 0).toNat_lt
  have h1 := (ip 1).toNat_lt
  intro hmax
  have hreserved : hmHashNum 0x58d5ab82 = uint32Max := by decide
  have hkey := hmHashNum_injective (hmax.trans hreserved.symm)
  rw [builtKey, ← h.1, ← h.2, ← UInt32.toNat_inj, UInt32.toNat_ofNat'] at hkey
  simp only [UInt32.reduceToNat] at hkey
  omega

/-- The block is read behind the bytes that were copied into it. -/
theorem macBytes_dupHw (mem : Memory) (block : Nat) (hw : HwAddr) :
    macBytes (dupHw mem block hw) block = macBytes mem block := by
  funext i
  unfold macBytes dupHw macOffset
  rw [dif_neg (by omega)]

theorem arpResolve_addrs (net : Netdev) (addr : Nat) (str : List UInt8) :
    (arpResolve net addr str).1.addrs = net.addrs ∧ (arpResolve net addr str).1.dhcp = net.dhcp := by
  unfold arpResolve
  by_cases haddr : addr = 0
  · rw [if_pos haddr]
    exact ⟨rfl, rfl⟩
  · rw [if_neg haddr]
    split
    · exact ⟨rfl, rfl⟩
    · exact ⟨rfl, rfl⟩

/-- A request that was found is removed. -/
theorem removeRequest_found {net : Netdev} {text : List UInt8} (h : net.findRequest text ≠ 0) :
    ∃ net', net.removeRequest text = .ok net' ∧ net'.addrs = net.addrs ∧ net'.dhcp = net.dhcp := by
  unfold Netdev.findRequest at h
  unfold Netdev.removeRequest
  cases hrequests : net.requests with
  | none => simp [hrequests] at h
  | some requests =>
      simp only [hrequests] at h
      obtain ⟨index, -, hremove⟩ := hmRemove_of_get h
      simp only [hremove, Halt.ok_bind]
      exact ⟨_, rfl, rfl, rfl⟩

/-- How a reply is handled. -/
theorem arpHandlePkt_reply (net : Netdev) (mem : Memory) (block : Nat) {pkt : ArpPkt} {ip : Ipv4Addr}
    {hw : HwAddr} (hreply : pkt.IsReply ip hw) :
    ∃ handled, arpHandlePkt net mem block pkt = .ok handled ∧ handled.net.dhcp = net.dhcp ∧
      if net.findRequest (cstring (netIpv4Bin2addr ip)) ≠ 0 then
        handled.net.addrs = (hmInsert hmHashNum net.addrs (builtKey ip) block).2 ∧
          handled.mem = dupHw mem block hw
      else handled.net.addrs = net.addrs ∧ handled.mem = mem := by
  have hopcode : ¬ n2h16 pkt.opcode = arpRequest := by
    rw [hreply.opcode]
    decide
  rw [arpHandlePkt, if_neg hopcode, if_pos ⟨hreply.opcode, hreply.plen⟩]
  simp only [hreply.srcpr, hreply.srchw]
  by_cases hfound : net.findRequest (cstring (netIpv4Bin2addr ip)) ≠ 0
  · have hstill : (netdevAddIpv4AddrPair net block ip).findRequest
        (cstring (netIpv4Bin2addr ip)) ≠ 0 := hfound
    obtain ⟨net', hremove, haddrs, hdhcp⟩ := removeRequest_found hstill
    rw [if_pos hfound, hremove]
    simp only [Halt.ok_bind, Halt.pure_eq_ok, if_pos hfound]
    exact ⟨_, rfl, hdhcp, haddrs, rfl⟩
  · simp only [if_neg hfound]
    exact ⟨_, rfl, rfl, rfl, rfl⟩

/-- What the lookup of the address gives after the pair was inserted. -/
theorem hmGet_pair (net : Netdev) {block : Nat} {ip : Ipv4Addr} (hblock : block ≠ 0)
    (hroom : net.addrs.len ≠ net.addrs.cap)
    (hprobe : hmFindFreeBucket net.addrs (hmHashNum (builtKey ip)) ≠ none) :
    hmGet hmHashNum (hmInsert hmHashNum net.addrs (builtKey ip) block).2 (readKey ip) =
      if hmGet hmHashNum net.addrs (readKey ip) ≠ 0 then hmGet hmHashNum net.addrs (readKey ip)
      else if Mirrored ip then block
      else 0 := by
  have hkeys : hmHashNum (readKey ip) = hmHashNum (builtKey ip) ↔ Mirrored ip :=
    hmHashNum_injective.eq_iff.trans (readKey_eq_builtKey_iff ip)
  cases hins : hmInsert hmHashNum net.addrs (builtKey ip) block with
  | mk e addrs =>
      cases e with
      | none =>
          rw [net.grown.hmGet_insert hins]
          simp only [hkeys]
      | some e =>
          obtain rfl := hmInsert_error hins
          have hplain : ¬ Mirrored ip := by
            intro hmirrored
            obtain ⟨hm, hok⟩ := exists_hmInsert hblock hroom hmirrored.valid hprobe
            rw [hins] at hok
            exact absurd (congrArg Prod.fst hok) (by simp)
          rw [if_neg hplain]
          by_cases hknown : hmGet hmHashNum net.addrs (readKey ip) ≠ 0
          · rw [if_pos hknown]
          · rw [if_neg hknown]
            exact not_not.mp hknown

/-- The lookup after a call, in terms of the cache it leaves. -/
theorem learns_iff {net : Netdev} {addr : Nat} {str : List UInt8} {mem : Memory} {block : Nat}
    {pkt : ArpPkt} {ip : Ipv4Addr} {hw : HwAddr} {handled : ArpHandled}
    (hhandle : arpHandlePkt (arpResolve net addr str).1 mem block pkt = .ok handled) :
    Learns net addr str mem block pkt ip hw ↔
      if hmGet hmHashNum handled.net.addrs (readKey ip) ≠ 0 then
        macBytes handled.mem (hmGet hmHashNum handled.net.addrs (readKey ip)) = hw
      else handled.net.dhcp ≠ 0 ∧ macBytes handled.mem (handled.net.dhcp + dhcpMacOffset) = hw := by
  have hlearns : Learns net addr str mem block pkt ip hw ↔
      ∃ ptr, netdevResolveAddress handled.net ip = some ptr ∧ macBytes handled.mem ptr = hw := by
    constructor
    · rintro ⟨handled', hhandle', hfound⟩
      obtain rfl := Except.ok.inj (hhandle.symm.trans hhandle')
      exact hfound
    · exact fun hfound => ⟨handled, hhandle, hfound⟩
  rw [hlearns, netdevResolveAddress]
  by_cases hknown : hmGet hmHashNum handled.net.addrs (readKey ip) ≠ 0
  · simp only [if_pos hknown, Option.some.injEq, exists_eq_left']
  · simp only [if_neg hknown]
    by_cases hdhcp : handled.net.dhcp = 0
    · simp [hdhcp]
    · simp only [hdhcp, if_false, Option.some.injEq, exists_eq_left', ne_eq, not_false_eq_true,
        true_and]

/-- What the lookup reads after a reply, whatever the request was. -/
theorem learns_iff_heldBefore {net : Netdev} {ip : Ipv4Addr} {hw : HwAddr} {block : Nat}
    {pkt : ArpPkt} (addr : Nat) (str : List UInt8) (mem : Memory) (hreply : pkt.IsReply ip hw)
    (hblock : block ≠ 0) (hroom : net.addrs.len ≠ net.addrs.cap)
    (hprobe : hmFindFreeBucket net.addrs (hmHashNum (builtKey ip)) ≠ none) :
    Learns net addr str mem block pkt ip hw ↔ HeldBefore net addr str mem block ip hw := by
  obtain ⟨haddrs, hdhcp⟩ := arpResolve_addrs net addr str
  obtain ⟨handled, hhandle, hrouter, hleft⟩ :=
    arpHandlePkt_reply (arpResolve net addr str).1 mem block hreply
  rw [learns_iff hhandle, hrouter, hdhcp, HeldBefore]
  by_cases hawaits : net.Awaits addr str ip
  · obtain ⟨hpairs, hmem⟩ := (if_pos hawaits).mp hleft
    rw [haddrs] at hpairs
    simp only [hpairs, hmem, hmGet_pair net hblock hroom hprobe, hawaits, if_true, true_and]
    by_cases hknown : hmGet hmHashNum net.addrs (readKey ip) ≠ 0
    · simp only [if_pos hknown]
    · by_cases hmirrored : Mirrored ip
      · simp only [if_neg hknown, if_pos hmirrored, if_pos hblock, macBytes_dupHw]
      · simp only [if_neg hknown, if_neg hmirrored, ne_eq, not_true_eq_false, if_false]
  · obtain ⟨hpairs, hmem⟩ := (if_neg hawaits).mp hleft
    rw [haddrs] at hpairs
    simp only [hpairs, hmem, hawaits, false_and, if_false]

/-- The sender of a reply is recognised when its address is rendered as it was asked for. -/
theorem Netdev.awaits_of_rendered {net : Netdev} {addr : Nat} {ip : Ipv4Addr} {requests : Hashmap}
    (behind : List UInt8) (hip : ∀ i, Rendered (ip i))
    (hnonnull : ∀ index key data,
      (net.requests.getD (hmAllocHashmap 8)).Holds index key data → data ≠ 0)
    (hins : hmInsert hmHashStr (net.requests.getD (hmAllocHashmap 8)) (dotted ip) addr =
      (none, requests)) :
    net.Awaits addr (dotted ip ++ 0 :: behind) ip := by
  have haddr : addr ≠ 0 := (hmInsert_eq_put hins).1
  have htext : cstring (dotted ip ++ 0 :: behind) = dotted ip := by
    rw [cstring, List.takeWhile_append_of_pos]
    · simp
    · intro c hc
      simpa using dotted_chars ip c hc
  rw [Netdev.Awaits, bin2addr_eq_dotted hip, arpResolve, if_neg haddr, htext, hins]
  exact hmGet_insert_ne_zero hnonnull hins rfl

/-- The hardware address of a reply is found after the reply exactly when the bytes that the lookup
reads hold it without the reply: those of an older entry, those behind the new block, or those
of the router. -/
theorem arp_learning_iff (net : Netdev) (ip : Ipv4Addr) (hw : HwAddr) (addr : Nat)
    (behind : List UInt8) (mem : Memory) (block : Nat) (pkt : ArpPkt) (hreply : pkt.IsReply ip hw)
    (hblock : block ≠ 0) (hroom : net.addrs.len ≠ net.addrs.cap)
    (hprobe : hmFindFreeBucket net.addrs (hmHashNum (builtKey ip)) ≠ none) :
    Learns net addr (dotted ip ++ 0 :: behind) mem block pkt ip hw ↔
      HeldBefore net addr (dotted ip ++ 0 :: behind) mem block ip hw :=
  learns_iff_heldBefore addr _ mem hreply hblock hroom hprobe

/-! ## Two replies -/

/-- A reply from this sender. -/
def replyFrom (ip : Ipv4Addr) (hw : HwAddr) : ArpPkt :=
  arpHeader arpReply ⟨hw, ip, fun _ => 0, fun _ => 0⟩

theorem replyFrom_isReply (ip : Ipv4Addr) (hw : HwAddr) : (replyFrom ip hw).IsReply ip hw where
  opcode := show n2h16 (n2h16 2) = 2 by decide
  plen := rfl
  srcpr := rfl
  srchw := rfl

/-- Memory with the same byte everywhere. -/
def filledMemory (b : UInt8) : Memory := fun _ => b

/-- The cache after initialization, and with a router. -/
def bootNetdev : Netdev := netdevInit 64 fun _ => 2
def routedNetdev : Netdev := netdevAddDhcpInfo bootNetdev 128 256 ![192, 168, 1, 7] ![192, 168, 1, 1]

/-- An address that reads the same backwards, and a block between bytes that happen to be right. -/
theorem mirrored_address_learned :
    Learns bootNetdev 32 (dotted ![1, 2, 2, 1] ++ [0]) (filledMemory 82) 512
      (replyFrom ![1, 2, 2, 1] fun _ => 82) ![1, 2, 2, 1] fun _ => 82 := by
  have hawaits : bootNetdev.Awaits 32 (dotted ![1, 2, 2, 1] ++ [0]) ![1, 2, 2, 1] := by
    obtain ⟨requests, hins⟩ : ∃ requests, hmInsert hmHashStr (hmAllocHashmap 8)
        (dotted ![1, 2, 2, 1]) 32 = (none, requests) :=
      exists_hmInsert (by decide) (by decide) (by decide) (by decide)
    refine Netdev.awaits_of_rendered [] (by decide) ?_ hins
    exact (grown_alloc 8).nonnull
  refine (arp_learning_iff bootNetdev _ _ 32 [] (filledMemory 82) 512 _ (replyFrom_isReply _ _)
    (by decide) (by decide) (by decide)).mpr ?_
  have hmirrored : Mirrored ![1, 2, 2, 1] := by decide
  have hunknown : ¬ hmGet hmHashNum bootNetdev.addrs (readKey ![1, 2, 2, 1]) ≠ 0 := by decide
  simp only [HeldBefore]
  rw [if_neg hunknown, if_pos ⟨hawaits, hmirrored⟩]
  rfl

/-- A host of the local network is asked for and answers, and the lookup gives the router. -/
theorem local_host_not_learned :
    ¬ Learns routedNetdev 32 (dotted ![192, 168, 1, 2] ++ [0]) (filledMemory 0) 512
      (replyFrom ![192, 168, 1, 2] ![82, 84, 0, 18, 52, 86]) ![192, 168, 1, 2]
      ![82, 84, 0, 18, 52, 86] := by
  have hplain : ¬ Mirrored ![192, 168, 1, 2] := by decide
  have hunknown : ¬ hmGet hmHashNum routedNetdev.addrs (readKey ![192, 168, 1, 2]) ≠ 0 := by decide
  rw [learns_iff_heldBefore 32 _ _ (replyFrom_isReply _ _) (by decide) (by decide) (by decide)]
  simp only [HeldBefore]
  rw [if_neg hunknown, if_neg fun h => hplain h.2]
  rintro ⟨-, hbytes⟩
  have hfirst := congrFun hbytes 0
  split at hfirst
  · exact absurd hfirst (by decide)
  · exact absurd hfirst (by decide)

end Net
end Micael

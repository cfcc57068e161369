import Mathlib.Tactic
import Micael.Foundation.LastWrite
import Micael.Net.Dhcp

/-!
# What the options of a DHCP offer write

`__handle_offer` copies the value of an option with the length that the packet gives, into one of five
members of `dhcp_info_t` that are four bytes long and follow each other.  A longer value goes on into the
next members and beyond the record, a shorter one changes a part of its member.  A pad is a single byte, but
the loop takes the byte behind it for its length.

What is expected is said by the options alone: a member holds the first four bytes of the last of its options
that has as many.

Main results:

- Theorem {lit}`optionTurns_iff`: when the loop takes the options one after the other.
- Theorem {lit}`optionLoop_info`: what the loop leaves at a byte of the record is what the last option that
  reaches the byte puts there.
- Theorem {lit}`dhcp_options_set_own_fields_iff`: the exact condition under which every member ends with the
  value that belongs there and nothing else is written.
-/

namespace Micael
namespace Net

open Foundation

/-! ## Sequences of options -/

/-- The code of a pad. -/
def optPad : UInt8 := 0

/-- What an options field is made of: pads, and options with a length byte. -/
inductive DhcpItem
  | pad
  | option (o : DhcpOption) (not_pad : o.code ≠ optPad)

/-- The bytes of an item. -/
def DhcpItem.bytes : DhcpItem → List UInt8
  | .pad => [optPad]
  | .option o _ => o.bytes

/-- The bytes of some items, one after the other. -/
def itemBytes (items : List DhcpItem) : List UInt8 := items.flatMap DhcpItem.bytes

/-- The indices at which the items start, the first of them at index `s`. -/
def itemStarts : Nat → List DhcpItem → List Int
  | _, [] => []
  | s, item :: items => (s : Int) :: itemStarts (s + item.bytes.length) items

/-- The members that options are copied to, by their offsets: `sb_mask`, `broadcast`, `router`, `dns` and
`lease`. -/
def infoFields : List Nat := [16, 12, 4, 8, 20]

/-- The option of an item, when it is one of the member and has four bytes at least. -/
def DhcpItem.ofField (field : Nat) : DhcpItem → Option DhcpOption
  | .pad => none
  | .option o _ => if infoMember o.code = some field ∧ 4 ≤ o.data.length then some o else none

/-- The byte that belongs at place `j` of a member: that of the last option of the member with four bytes at
least, and the old one when there is none. -/
def fieldByte (items : List DhcpItem) (info : Nat → UInt8) (field j : Nat) : UInt8 :=
  match (items.filterMap (DhcpItem.ofField field)).getLast? with
  | some o => o.data.getD j 0
  | none => info (field + j)

/-! ## The turns of the loop -/

/-- The indices at which the loop of `__handle_offer` takes an option, from index `i` on, and the index at
which it ends. -/
def optionTurns (offer : DhcpOffer) : Nat → Int → Option (List Int × Int)
  | 0, _ => none
  | turns + 1, i =>
      if i < offer.size.toNat then
        if offer.byte i = optEnd then some ([], i)
        else
          (optionTurns offer turns (shortOfInt (i + 2 + offer.optLength i))).map fun rest =>
            (i :: rest.1, rest.2)
      else some ([], i)

/-- The option at index `i` is copied over byte `k`, counted from the start of the record. -/
def OptionWrites (offer : DhcpOffer) (i : Int) (k : Nat) : Prop :=
  ∃ member, infoMember (offer.byte i) = some member ∧ member ≤ k ∧ k < member + offer.optLength i

/-- The loop takes the items one after the other and ends behind them, every member holds what belongs
there, and no other byte is written. -/
def OptionsSetOwnFields (offer : DhcpOffer) (items : List DhcpItem) (info : Nat → UInt8) : Prop :=
  ∃ turns scan,
    optionTurns offer turns 0 = some (itemStarts 0 items, ((itemBytes items).length : Int)) ∧
    optionLoop offer turns 0 ⟨info, []⟩ = some scan ∧
    (∀ field ∈ infoFields, ∀ j < 4, scan.info (field + j) = fieldByte items info field j) ∧
    ∀ i ∈ itemStarts 0 items, ∀ k, OptionWrites offer i k →
      ∃ field ∈ infoFields, field ≤ k ∧ k < field + 4

/-- The byte that an item puts at byte `k` of the record. -/
def DhcpItem.put (k : Nat) : DhcpItem → Option UInt8
  | .pad => none
  | .option o _ => (infoMember o.code).bind fun member =>
      if member ≤ k then o.data[k - member]? else none

/-- The byte that an item puts at place `j` of a member, when it is one of the member's own with four bytes
at least. -/
def DhcpItem.putOwn (field j : Nat) (item : DhcpItem) : Option UInt8 :=
  (item.ofField field).map fun o => o.data.getD j 0

/-- There is no pad, a `short` reaches the end of the options, where `OPT_END` stands, and no value reaches
beyond `lease`; and what an option puts into a member of another option, or too short into its own, is
written again later or belongs there. -/
structure OptionsKeepFields (offer : DhcpOffer) (items : List DhcpItem) (info : Nat → UInt8) : Prop where
  no_pad : ∀ item ∈ items, item ≠ .pad
  reached : (itemBytes items).length < 2 ^ 15
  ended : offer.byte (itemBytes items).length = optEnd ∨ offer.size.toNat = 0
  inside : ∀ o h, DhcpItem.option o h ∈ items → ∀ member, infoMember o.code = some member →
    member + o.data.length ≤ 24
  repaired : ∀ field ∈ infoFields, ∀ j < 4,
    StraysRepaired (DhcpItem.put (field + j)) (DhcpItem.putOwn field j) items
      (fieldByte items info field j)

section Turns

variable {offer : DhcpOffer} {items : List DhcpItem} {s : Nat}

theorem itemBytes_cons (item : DhcpItem) (items : List DhcpItem) :
    itemBytes (item :: items) = item.bytes ++ itemBytes items := List.flatMap_cons

/-- The code and the length of an option that was received at index `s`. -/
theorem option_received {o : DhcpOption} {rest : List UInt8}
    (hpre : o.bytes ++ rest <+: offer.received.drop s) :
    offer.Received s ∧ offer.byte s = o.code ∧ offer.optLength s = o.data.length ∧
      o.data ++ rest <+: offer.received.drop (s + 2) := by
  rw [DhcpOption.bytes, List.cons_append, cons_prefix_received, List.cons_append,
    cons_prefix_received] at hpre
  obtain ⟨hreceived, hcode, -, hlength, hdata⟩ := hpre
  refine ⟨hreceived, hcode, ?_, hdata⟩
  have hbyte : offer.byte ((s : Int) + 1) = UInt8.ofNat o.data.length := by exact_mod_cast hlength
  rw [DhcpOffer.optLength, hbyte, UInt8.toNat_ofNat', Nat.mod_eq_of_lt o.data_length]

/-- A byte of the data of an option, where it was received. -/
theorem received_data {data rest : List UInt8} {j : Nat}
    (hpre : data ++ rest <+: offer.received.drop (s + 2)) (hj : j < data.length) :
    offer.byte ((s : Int) + 2 + j) = data[j] := by
  have hdrop : data.drop j ++ rest <+: offer.received.drop (s + 2 + j) := by
    have hsplit := hpre
    rw [← List.take_append_drop j data, List.append_assoc] at hsplit
    have hrest := prefix_received_drop hsplit
    rwa [List.length_take, Nat.min_eq_left hj.le] at hrest
  rw [List.drop_eq_getElem_cons hj, List.cons_append, cons_prefix_received] at hdrop
  exact_mod_cast hdrop.2.1

/-- The first index of the turns, or the last one when no option is taken. -/
theorem optionTurns_head {turns : Nat} {i : Int} {taken : List Int} {last : Int}
    (hret : optionTurns offer turns i = some (taken, last)) : (taken ++ [last]).head? = some i := by
  cases turns with
  | zero => exact absurd hret (by simp [optionTurns])
  | succ turns =>
      rw [optionTurns] at hret
      split_ifs at hret with hsize hend
      · obtain ⟨rfl, rfl⟩ := Prod.mk.inj (Option.some.inj hret)
        rfl
      · obtain ⟨rest, -, hrest⟩ := Option.map_eq_some_iff.mp hret
        obtain ⟨rfl, rfl⟩ := Prod.mk.inj hrest
        rfl
      · obtain ⟨rfl, rfl⟩ := Prod.mk.inj (Option.some.inj hret)
        rfl

theorem itemStarts_head (s : Nat) (items : List DhcpItem) :
    (itemStarts s items ++ [((s + (itemBytes items).length : Nat) : Int)]).head? = some (s : Int) := by
  cases items with
  | nil => simp [itemStarts, itemBytes]
  | cons item items => rfl

theorem DhcpOffer.received_length (offer : DhcpOffer) :
    offer.received.length = offer.size.toNat - dhcpPktSize := by
  rw [DhcpOffer.received, List.length_map, List.length_range]

/-- Received items reach at most as far as what was received. -/
theorem itemBytes_received (hpre : itemBytes items <+: offer.received.drop s)
    (hs : s ≤ offer.received.length) :
    s + (itemBytes items).length ≤ offer.size.toNat - dhcpPktSize := by
  have hlength := hpre.length_le
  rw [List.length_drop] at hlength
  rw [offer.received_length] at hs hlength
  omega

/-- The index of the item behind an option. -/
theorem next_item (s : Nat) (o : DhcpOption) : s + o.bytes.length = s + 2 + o.data.length := by
  rw [o.bytes_length]
  omega

/-- Received items without the first one, an option. -/
theorem tail_received {o : DhcpOption} {hcode : o.code ≠ optPad}
    (hpre : itemBytes (.option o hcode :: items) <+: offer.received.drop s)
    (hs : s ≤ offer.received.length) :
    itemBytes items <+: offer.received.drop (s + 2 + o.data.length) ∧
      s + 2 + o.data.length ≤ offer.received.length := by
  have hbound := itemBytes_received hpre hs
  rw [itemBytes_cons] at hpre hbound
  rw [List.length_append, DhcpItem.bytes, o.bytes_length] at hbound
  refine ⟨?_, ?_⟩
  · rw [← next_item]
    exact prefix_received_drop hpre
  · rw [offer.received_length]
    omega

/-- The end of the items, seen from the first of them and from the one behind it. -/
theorem item_end (s : Nat) (o : DhcpOption) (hcode : o.code ≠ optPad) (items : List DhcpItem) :
    s + (itemBytes (.option o hcode :: items)).length =
      s + 2 + o.data.length + (itemBytes items).length := by
  rw [itemBytes_cons, List.length_append, DhcpItem.bytes, o.bytes_length]
  omega

/-- One turn of the loop, over an option that was received. -/
theorem optionTurns_option {o : DhcpOption} {hcode : o.code ≠ optPad}
    (hpre : itemBytes (.option o hcode :: items) <+: offer.received.drop s) (turns : Nat) :
    optionTurns offer (turns + 1) s =
      (optionTurns offer turns (shortOfInt (s + 2 + o.data.length : Nat))).map fun rest =>
        ((s : Int) :: rest.1, rest.2) := by
  rw [itemBytes_cons] at hpre
  obtain ⟨hreceived, hbyte, hopt, -⟩ := option_received hpre
  have hbound := hreceived.2
  rw [optionTurns, if_pos (by omega), if_neg (hbyte ▸ o.not_end), offer.next_index, hopt]

/-- The loop takes the items one after the other when there is no pad and `OPT_END` is behind them. -/
theorem optionTurns_of_straight (hpre : itemBytes items <+: offer.received.drop s)
    (hs : s ≤ offer.received.length) (hpad : ∀ item ∈ items, item ≠ .pad)
    (hshort : s + (itemBytes items).length < 2 ^ 15)
    (hended : offer.byte (s + (itemBytes items).length : Nat) = optEnd ∨ offer.size.toNat = 0) :
    ∃ turns, optionTurns offer turns s =
      some (itemStarts s items, ((s + (itemBytes items).length : Nat) : Int)) := by
  induction items generalizing s with
  | nil =>
      refine ⟨1, ?_⟩
      rw [optionTurns]
      rcases hended with hend | hzero
      · rw [if_pos (show offer.byte s = optEnd from hend), ite_self]
        rfl
      · rw [if_neg (by omega)]
        rfl
  | cons item items ih =>
      cases item with
      | pad => exact absurd rfl (hpad .pad List.mem_cons_self)
      | option o hcode =>
          obtain ⟨hrest, hnext⟩ := tail_received hpre hs
          rw [item_end] at hshort hended ⊢
          obtain ⟨turns, hturns⟩ := ih hrest hnext
            (fun x hx => hpad x (List.mem_cons_of_mem _ hx)) hshort hended
          refine ⟨turns + 1, ?_⟩
          rw [optionTurns_option hpre, shortOfInt_of_lt (by omega), hturns, Option.map_some,
            itemStarts, DhcpItem.bytes, next_item]

/-- A loop that takes the items one after the other is at the index of the first one. -/
theorem optionTurns_index {turns : Nat} {i : Int}
    (hret : optionTurns offer turns i =
      some (itemStarts s items, ((s + (itemBytes items).length : Nat) : Int))) : i = s := by
  have hfirst := optionTurns_head hret
  rw [itemStarts_head] at hfirst
  exact (Option.some.inj hfirst).symm

/-- An index that a `short` leaves as it is. -/
theorem lt_of_shortOfInt_eq (hs : s < 2 ^ 16) (hindex : shortOfInt s = s) : s < 2 ^ 15 := by
  by_contra hlarge
  have hneg := shortOfInt_wraps (not_lt.mp hlarge) hs
  omega

/-- The loop does not skip a pad as a single byte. -/
theorem optionTurns_pad {turns : Nat}
    (hpre : itemBytes (.pad :: items) <+: offer.received.drop s) :
    optionTurns offer turns s ≠ some (itemStarts s (.pad :: items),
      ((s + (itemBytes (.pad :: items)).length : Nat) : Int)) := by
  intro hret
  rw [itemBytes_cons, DhcpItem.bytes, List.singleton_append, cons_prefix_received] at hpre
  obtain ⟨hreceived, hbyte, -⟩ := hpre
  have hbound := hreceived.2
  cases turns with
  | zero => exact absurd hret (by simp [optionTurns])
  | succ turns =>
      rw [optionTurns, if_pos (by omega), if_neg (by rw [hbyte]; decide)] at hret
      obtain ⟨rest, hrest, heq⟩ := Option.map_eq_some_iff.mp hret
      obtain ⟨htaken, hlast⟩ := Prod.mk.inj heq
      have htail : rest = (itemStarts (s + 1) items,
          ((s + 1 + (itemBytes items).length : Nat) : Int)) := by
        refine Prod.ext (List.cons.inj htaken).2 ?_
        rw [hlast, itemBytes_cons, List.length_append]
        simp only [DhcpItem.bytes, List.length_singleton]
        omega
      -- The next index is at least two further on, or negative.
      have hnext := optionTurns_index (htail ▸ hrest)
      have hlength := offer.optLength_lt s
      rw [offer.next_index, shortOfInt, Int.bmod_def] at hnext
      have hsize := offer.size.toNat_lt
      rw [dhcpPktSize] at hbound
      push_cast at hnext
      omega

/-- A loop that takes the items one after the other meets no pad, and `OPT_END` behind them. -/
theorem straight_of_optionTurns {turns : Nat} (hpre : itemBytes items <+: offer.received.drop s)
    (hs : s ≤ offer.received.length)
    (hret : optionTurns offer turns (shortOfInt s) =
      some (itemStarts s items, ((s + (itemBytes items).length : Nat) : Int))) :
    (∀ item ∈ items, item ≠ .pad) ∧ s + (itemBytes items).length < 2 ^ 15 ∧
      (offer.byte (s + (itemBytes items).length : Nat) = optEnd ∨ offer.size.toNat = 0) := by
  induction items generalizing s turns with
  | nil =>
      have hsize := itemBytes_received hpre hs
      have hmax := offer.size.toNat_lt
      have hindex := optionTurns_index hret
      rw [hindex] at hret
      refine ⟨fun _ hin => absurd hin List.not_mem_nil, ?_, ?_⟩
      · exact lt_of_shortOfInt_eq (by omega) hindex
      · cases turns with
        | zero => exact absurd hret (by simp [optionTurns])
        | succ turns =>
            rw [optionTurns] at hret
            split_ifs at hret with hlow hend
            · exact .inl hend
            · obtain ⟨rest, -, hrest⟩ := Option.map_eq_some_iff.mp hret
              exact absurd (Prod.mk.inj hrest).1 (by simp [itemStarts])
            · refine .inr ?_
              rw [dhcpPktSize] at hsize
              omega
  | cons item items ih =>
      rw [optionTurns_index hret] at hret
      cases item with
      | pad => exact absurd hret (optionTurns_pad hpre)
      | option o hcode =>
          obtain ⟨hrest, hnext⟩ := tail_received hpre hs
          cases turns with
          | zero => exact absurd hret (by simp [optionTurns])
          | succ turns =>
              rw [optionTurns_option hpre] at hret
              obtain ⟨⟨taken, last⟩, hturns, heq⟩ := Option.map_eq_some_iff.mp hret
              obtain ⟨htaken, rfl⟩ := Prod.mk.inj heq
              rw [itemStarts, DhcpItem.bytes, next_item] at htaken
              obtain rfl : taken = _ := (List.cons.inj htaken).2
              rw [item_end] at hturns
              obtain ⟨hpad, hshort, hended⟩ := ih hrest hnext hturns
              rw [item_end]
              refine ⟨fun x hx => ?_, hshort, hended⟩
              rcases List.mem_cons.mp hx with rfl | hin
              · intro heq
                cases heq
              · exact hpad x hin

/-- The loop takes the options of an offer one after the other, and ends behind them, just when there is no
pad, and `OPT_END` stands where a `short` reaches it. -/
theorem optionTurns_iff (hpre : itemBytes items <+: offer.received) :
    (∃ turns, optionTurns offer turns 0 =
        some (itemStarts 0 items, ((itemBytes items).length : Int))) ↔
      (∀ item ∈ items, item ≠ .pad) ∧ (itemBytes items).length < 2 ^ 15 ∧
        (offer.byte (itemBytes items).length = optEnd ∨ offer.size.toNat = 0) := by
  have hzero : shortOfInt (0 : Nat) = 0 := by decide
  constructor
  · rintro ⟨turns, hret⟩
    have hall := straight_of_optionTurns (s := 0) hpre (Nat.zero_le _)
      (by rw [hzero, Nat.zero_add]; exact hret)
    rwa [Nat.zero_add] at hall
  · rintro ⟨hpad, hshort, hended⟩
    have hall := optionTurns_of_straight (s := 0) hpre (Nat.zero_le _) hpad
      (by rwa [Nat.zero_add]) (by rwa [Nat.zero_add])
    rwa [Nat.zero_add] at hall

end Turns

/-! ## The bytes of the record -/

section Bytes

variable {offer : DhcpOffer} {items : List DhcpItem} {s k : Nat}

/-- The loop is the `switch` at each of its turns. -/
theorem optionLoop_info (offer : DhcpOffer) (turns : Nat) (i : Int) (scan : OptionScan) :
    (optionLoop offer turns i scan).map OptionScan.info =
      (optionTurns offer turns i).map fun t =>
        (t.1.foldl (fun scan j => copyOption offer j scan) scan).info := by
  induction turns generalizing i scan with
  | zero => rfl
  | succ turns ih =>
      rw [optionLoop, optionTurns]
      split_ifs with hsize hend
      · rfl
      · rw [ih, Option.map_map]
        rfl
      · rfl

/-- The `switch` writes the bytes of the option over those of the record. -/
theorem copyOption_put {o : DhcpOption} {hcode : o.code ≠ optPad} {rest : List UInt8}
    (hpre : o.bytes ++ rest <+: offer.received.drop s) (scan : OptionScan) (k : Nat) :
    (copyOption offer s scan).info k = ((DhcpItem.option o hcode).put k).getD (scan.info k) := by
  obtain ⟨-, hbyte, hopt, hdata⟩ := option_received hpre
  rw [copyOption, hbyte, DhcpItem.put, hopt]
  cases infoMember o.code with
  | none => rfl
  | some member =>
      simp only [Option.bind_some]
      by_cases hlow : member ≤ k
      · rw [if_pos hlow]
        by_cases hhigh : k - member < o.data.length
        · rw [if_pos ⟨hlow, by omega⟩, List.getElem?_eq_getElem hhigh, Option.getD_some]
          exact received_data hdata hhigh
        · rw [if_neg (by omega), List.getElem?_eq_none (by omega), Option.getD_none]
      · rw [if_neg fun h => hlow h.1, if_neg hlow, Option.getD_none]

/-- A byte of the record, after the loop has taken the items, is the last one that an item put there. -/
theorem foldl_copyOption (hpre : itemBytes items <+: offer.received.drop s)
    (hs : s ≤ offer.received.length) (hpad : ∀ item ∈ items, item ≠ .pad) (scan : OptionScan)
    (k : Nat) :
    ((itemStarts s items).foldl (fun scan j => copyOption offer j scan) scan).info k =
      lastWrite (DhcpItem.put k) items (scan.info k) := by
  induction items generalizing s scan with
  | nil => rfl
  | cons item items ih =>
      cases item with
      | pad => exact absurd rfl (hpad .pad List.mem_cons_self)
      | option o hcode =>
          obtain ⟨hrest, hnext⟩ := tail_received hpre hs
          rw [itemStarts, List.foldl_cons, DhcpItem.bytes, next_item,
            ih hrest hnext (fun x hx => hpad x (List.mem_cons_of_mem _ hx)), lastWrite_cons]
          rw [itemBytes_cons] at hpre
          rw [copyOption_put hpre]

/-- The byte that belongs into a member is the last one that an option of the member puts there. -/
theorem fieldByte_eq_lastWrite (items : List DhcpItem) (info : Nat → UInt8) (field j : Nat) :
    fieldByte items info field j =
      lastWrite (DhcpItem.putOwn field j) items (info (field + j)) := by
  have hown : items.filterMap (DhcpItem.putOwn field j) =
      (items.filterMap (DhcpItem.ofField field)).map fun o => o.data.getD j 0 :=
    List.map_filterMap.symm
  rw [lastWrite_eq_getLast?, hown, List.getLast?_map, fieldByte]
  cases (items.filterMap (DhcpItem.ofField field)).getLast? <;> rfl

/-- What an option of a member puts at a place of the member. -/
theorem put_of_putOwn {field j : Nat} (hj : j < 4) (item : DhcpItem) (b : UInt8)
    (hown : item.putOwn field j = some b) : item.put (field + j) = some b := by
  cases item with
  | pad => exact absurd hown (by simp [DhcpItem.putOwn, DhcpItem.ofField])
  | option o hcode =>
      obtain ⟨o', hofField, rfl⟩ := Option.map_eq_some_iff.mp hown
      rw [DhcpItem.ofField] at hofField
      split_ifs at hofField with hmine
      obtain rfl := Option.some.inj hofField
      have hlength : j < o.data.length := by omega
      rw [DhcpItem.put, hmine.1, Option.bind_some, if_pos (Nat.le_add_right field j),
        Nat.add_sub_cancel_left, List.getD_eq_getElem?_getD, List.getElem?_eq_getElem hlength]
      rfl

/-- A condition on the codes and the lengths at the indices of the turns is one on the options. -/
theorem forall_itemStarts (P : UInt8 → Nat → Prop) (hpre : itemBytes items <+: offer.received.drop s)
    (hs : s ≤ offer.received.length) (hpad : ∀ item ∈ items, item ≠ .pad) :
    (∀ i ∈ itemStarts s items, P (offer.byte i) (offer.optLength i)) ↔
      ∀ o h, DhcpItem.option o h ∈ items → P o.code o.data.length := by
  induction items generalizing s with
  | nil => simp [itemStarts]
  | cons item items ih =>
      cases item with
      | pad => exact absurd rfl (hpad .pad List.mem_cons_self)
      | option o hcode =>
          obtain ⟨hrest, hnext⟩ := tail_received hpre hs
          rw [itemBytes_cons] at hpre
          obtain ⟨-, hbyte, hopt, -⟩ := option_received hpre
          rw [itemStarts, List.forall_mem_cons, DhcpItem.bytes, next_item, hbyte, hopt,
            ih hrest hnext fun x hx => hpad x (List.mem_cons_of_mem _ hx)]
          constructor
          · rintro ⟨hfirst, hlater⟩ o' h' hin
            rcases List.mem_cons.mp hin with heq | hin
            · obtain ⟨rfl⟩ := heq
              exact hfirst
            · exact hlater o' h' hin
          · intro hall
            exact ⟨hall o hcode List.mem_cons_self, fun o' h' hin =>
              hall o' h' (List.mem_cons_of_mem _ hin)⟩

/-- The members that options are copied to are the five. -/
theorem infoMember_mem {code : UInt8} {member : Nat} (hmember : infoMember code = some member) :
    member ∈ infoFields := by
  unfold infoMember at hmember
  split_ifs at hmember <;> obtain rfl := Option.some.inj hmember <;> decide

/-- The five members are the bytes from `router` to `lease`. -/
theorem exists_infoField_iff : (∃ field ∈ infoFields, field ≤ k ∧ k < field + 4) ↔ 4 ≤ k ∧ k < 24 := by
  simp only [infoFields, List.mem_cons, List.not_mem_nil, or_false, exists_eq_or_imp, exists_eq_left]
  omega

/-- The bytes that an option with a code and a length is copied over are those of the five members. -/
def ValueInside (code : UInt8) (len : Nat) : Prop :=
  ∀ k, (∃ member, infoMember code = some member ∧ member ≤ k ∧ k < member + len) →
    ∃ field ∈ infoFields, field ≤ k ∧ k < field + 4

/-- A value stays inside the five members just when it does not reach beyond `lease`. -/
theorem valueInside_iff (code : UInt8) (len : Nat) :
    ValueInside code len ↔ ∀ member, infoMember code = some member → member + len ≤ 24 := by
  simp only [ValueInside, exists_infoField_iff]
  constructor
  · intro hinside member hmember
    by_contra hbeyond
    have hmem := exists_infoField_iff.mp ⟨member, infoMember_mem hmember, le_rfl, by omega⟩
    have hlast := hinside (member + len - 1) ⟨member, hmember, by omega, by omega⟩
    omega
  · rintro hinside k ⟨member, hmember, hlow, hhigh⟩
    have hmem := exists_infoField_iff.mp ⟨member, infoMember_mem hmember, le_rfl, by omega⟩
    have hlast := hinside member hmember
    omega

end Bytes

/-- The options of an offer set their own members only, just when they keep the members of each other. -/
theorem dhcp_options_set_own_fields_iff (offer : DhcpOffer) (items : List DhcpItem)
    (info : Nat → UInt8) (hitems : itemBytes items <+: offer.received) :
    OptionsSetOwnFields offer items info ↔ OptionsKeepFields offer items info := by
  have hcopied : (∀ item ∈ items, item ≠ .pad) → ∀ turns scan,
      optionTurns offer turns 0 = some (itemStarts 0 items, ((itemBytes items).length : Int)) →
      optionLoop offer turns 0 ⟨info, []⟩ = some scan →
      ∀ k, scan.info k = lastWrite (DhcpItem.put k) items (info k) := by
    intro hpad turns scan hturns hloop k
    have hinfo := optionLoop_info offer turns 0 ⟨info, []⟩
    rw [hloop, hturns] at hinfo
    rw [Option.some.inj hinfo]
    exact foldl_copyOption (s := 0) hitems (Nat.zero_le _) hpad _ k
  have hfields : ∀ field ∈ infoFields, ∀ j < 4,
      (lastWrite (DhcpItem.put (field + j)) items (info (field + j)) = fieldByte items info field j ↔
        StraysRepaired (DhcpItem.put (field + j)) (DhcpItem.putOwn field j) items
          (fieldByte items info field j)) := by
    intro field _ j hj
    rw [fieldByte_eq_lastWrite]
    exact lastWrite_eq_iff _ (put_of_putOwn hj) items _
  constructor
  · rintro ⟨turns, scan, hturns, hloop, hvalues, hframe⟩
    obtain ⟨hpad, hshort, hended⟩ := (optionTurns_iff hitems).mp ⟨turns, hturns⟩
    refine ⟨hpad, hshort, hended, ?_, fun field hfield j hj => ?_⟩
    · have hinside := (forall_itemStarts (s := 0) ValueInside hitems (Nat.zero_le _) hpad).mp hframe
      exact fun o h hin => (valueInside_iff o.code o.data.length).mp (hinside o h hin)
    · rw [← hfields field hfield j hj, ← hcopied hpad turns scan hturns hloop]
      exact hvalues field hfield j hj
  · intro hkeep
    obtain ⟨turns, hturns⟩ :=
      (optionTurns_iff hitems).mpr ⟨hkeep.no_pad, hkeep.reached, hkeep.ended⟩
    obtain ⟨scan, hloop⟩ : ∃ scan, optionLoop offer turns 0 ⟨info, []⟩ = some scan := by
      have hinfo := optionLoop_info offer turns 0 ⟨info, []⟩
      rw [hturns, Option.map_some] at hinfo
      obtain ⟨scan, hscan, -⟩ := Option.map_eq_some_iff.mp hinfo
      exact ⟨scan, hscan⟩
    refine ⟨turns, scan, hturns, hloop, fun field hfield j hj => ?_, ?_⟩
    · rw [hcopied hkeep.no_pad turns scan hturns hloop]
      exact (hfields field hfield j hj).mpr (hkeep.repaired field hfield j hj)
    · exact (forall_itemStarts (s := 0) ValueInside hitems (Nat.zero_le _) hkeep.no_pad).mpr fun o h hin =>
        (valueInside_iff o.code o.data.length).mpr (hkeep.inside o h hin)

/-! ## Offers -/

/-- Options of the five members that have four bytes each keep the members. -/
theorem optionsKeepFields_of_four {offer : DhcpOffer} {items : List DhcpItem} {info : Nat → UInt8}
    (hpad : ∀ item ∈ items, item ≠ .pad) (hreached : (itemBytes items).length < 2 ^ 15)
    (hended : offer.byte (itemBytes items).length = optEnd)
    (hfour : ∀ o h, DhcpItem.option o h ∈ items → infoMember o.code ≠ none → o.data.length = 4) :
    OptionsKeepFields offer items info := by
  refine ⟨hpad, hreached, .inl hended, fun o h hin member hmember => ?_, ?_⟩
  · have hlast := exists_infoField_iff.mp
      ⟨member, infoMember_mem hmember, Nat.le_add_right member 3, by omega⟩
    rw [hfour o h hin (by simp [hmember])]
    omega
  · rintro field hfield j hj before item after b rfl hput hown
    cases item with
    | pad => exact absurd hput (by simp [DhcpItem.put])
    | option o h =>
        obtain ⟨member, hmember, hbyte⟩ := Option.bind_eq_some_iff.mp hput
        have hlength := hfour o h (List.mem_append_right _ List.mem_cons_self) (by simp [hmember])
        have hplace : member ≤ field + j ∧ field + j < member + 4 := by
          split_ifs at hbyte with hlow
          obtain ⟨hhigh, -⟩ := List.getElem?_eq_some_iff.mp hbyte
          omega
        -- The members are four bytes apart.
        have hsame : member = field := by
          have hmem := infoMember_mem hmember
          simp only [infoFields, List.mem_cons, List.not_mem_nil, or_false] at hfield hmem
          omega
        rw [DhcpItem.putOwn, DhcpItem.ofField, if_pos ⟨hsame ▸ hmember, hlength.ge⟩] at hown
        exact absurd hown (by simp)

/-- `OPT_MESSAGE_TYPE`. -/
def optMessageType : UInt8 := 53

/-- `MSG_OFFER`: only with this in `payload[2]` does `dhcp_handle_pkt` call `__handle_offer`. -/
def msgOffer : UInt8 := 2

/-- The option that makes a message an offer. -/
def offerItem : DhcpItem := .option ⟨optMessageType, [msgOffer], by decide, by decide⟩ (by decide)

/-- An offer of a subnet mask and of one router. -/
def maskOffer : DhcpOffer where
  byte k := [53, 1, 2, 1, 4, 255, 255, 255, 0, 3, 4, 10, 0, 0, 1, 255].getD k.toNat 0
  size := 256

/-- The options of the offer. -/
def maskItems : List DhcpItem :=
  [offerItem, .option ⟨optSubnetMask, [255, 255, 255, 0], by decide, by decide⟩ (by decide),
    .option ⟨optRouter, [10, 0, 0, 1], by decide, by decide⟩ (by decide)]

theorem maskOffer_own_fields :
    maskOffer.byte 2 = msgOffer ∧ OptionsSetOwnFields maskOffer maskItems fun _ => 0 := by
  refine ⟨by decide, (dhcp_options_set_own_fields_iff maskOffer maskItems _ ⟨[255], by decide⟩).mpr ?_⟩
  refine optionsKeepFields_of_four (fun item hin => ?_) (by decide) (by decide) fun o h hin hmember => ?_
  · rcases List.mem_cons.mp hin with rfl | hin
    · exact nofun
    · rcases List.mem_cons.mp hin with rfl | hin
      · exact nofun
      · obtain rfl := List.mem_singleton.mp hin
        exact nofun
  · rcases List.mem_cons.mp hin with heq | hin
    · obtain ⟨rfl⟩ := heq
      exact absurd rfl hmember
    · rcases List.mem_cons.mp hin with heq | hin
      · obtain ⟨rfl⟩ := heq
        rfl
      · obtain ⟨rfl⟩ := List.mem_singleton.mp hin
        rfl

/-- An offer of two routers, in one option. -/
def twoRouterOffer : DhcpOffer where
  byte k := [53, 1, 2, 3, 8, 10, 0, 0, 1, 10, 0, 0, 2, 255].getD k.toNat 0
  size := 254

/-- The options of the offer. -/
def twoRouterItems : List DhcpItem :=
  [offerItem, .option ⟨optRouter, [10, 0, 0, 1, 10, 0, 0, 2], by decide, by decide⟩ (by decide)]

/-- The second router becomes the name server. -/
theorem twoRouterOffer_sets_dns :
    twoRouterOffer.byte 2 = msgOffer ∧ twoRouterOffer.received = itemBytes twoRouterItems ++ [optEnd] ∧
      ¬ OptionsSetOwnFields twoRouterOffer twoRouterItems fun _ => 0 := by
  refine ⟨by decide, by decide, fun ⟨turns, scan, hturns, hloop, hvalues, _⟩ => ?_⟩
  have hinfo := optionLoop_info twoRouterOffer turns 0 ⟨fun _ => 0, []⟩
  rw [hturns, hloop] at hinfo
  have hdns : scan.info 8 = 10 := by
    rw [Option.some.inj hinfo]
    decide
  have hright : fieldByte twoRouterItems (fun _ => 0) 8 0 = 0 := by decide
  have hexpected := hvalues 8 (by decide) 0 (by decide)
  rw [hright] at hexpected
  exact absurd (hdns.symm.trans hexpected) (by decide)

end Net
end Micael

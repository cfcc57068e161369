import Micael.Foundation.OnesComplement
import Micael.Net.Tcp

/-!
# The checksums of IPv4 headers and TCP segments

Both `__calculate_checksum` functions add 16-bit words in a 32-bit variable, fold what is above the low
16 bits once, and return the complement of the low 16 bits.  The fold can carry again, and the mask
keeps eight bits of what is folded.  The one for TCP adds {lit}`transport.size / 2` words, so that the
last byte of a segment of odd length is left out.

The one's-complement sum and the words of a string of bytes are those of the library.  A header and a
segment are strings of bytes here, as they are sent.

Main results:

- Theorem {lit}`foldedComplement_eq_iff` and {lit}`foldedComplement_verifies_iff`: when folding once gives
  the one's complement of the sum, and when a receiver accepts it.
- Theorem {lit}`ipv4_checksum_right_iff`: the headers with a right checksum.
- Theorem {lit}`tcp_checksum_right_iff`: the segments with a right checksum.
-/

namespace Micael
namespace Net

open Foundation Lib

/-! ## Folding once -/

/-- `~(((sum & 0xff0000) >> 16) + sum)` for the sum of some words. -/
def foldedComplement (ws : List Nat) : Nat :=
  let sum := u32 ws.sum
  2 ^ 16 - 1 - u16 (sum / 2 ^ 16 % 256 + sum)

theorem foldedComplement_le (ws : List Nat) : foldedComplement ws ≤ 65535 := Nat.sub_le _ _

/-- Adding the upper part of a sum to the lower one gives a 16-bit word. -/
def FoldsOnce (sum : Nat) : Prop := sum < 2 ^ 24 ∧ sum / 2 ^ 16 + sum % 2 ^ 16 < 2 ^ 16

instance (sum : Nat) : Decidable (FoldsOnce sum) := inferInstanceAs (Decidable (_ ∧ _))

/-- The folded complement of a sum below {lit}`2 ^ 32`. -/
theorem foldedComplement_eq {ws : List Nat} (hsum : ws.sum < 2 ^ 32) :
    foldedComplement ws = 65535 - (ws.sum / 65536 % 256 + ws.sum) % 65536 := by
  simp only [foldedComplement, u32, u16, Nat.mod_eq_of_lt hsum]
  norm_num

/-- Folding once agrees with the sum modulo `0xffff` up to an error `e`: the byte `b` that is left out,
the carries that are masked and the carry of the fold itself. -/
theorem fold_error {s b : Nat} (hs : s < 2 ^ 31) (hb : b < 256) :
    ∃ n e, s + b = 65535 * n + (e + (s / 65536 % 256 + s) % 65536) ∧ e < 65535 ∧
      (e = 0 ↔ b = 0 ∧ FoldsOnce s) ∧ (e = 0 → 0 < s → 0 < (s / 65536 % 256 + s) % 65536) := by
  unfold FoldsOnce
  obtain ⟨h, l, hl, rfl⟩ : ∃ h l, l < 65536 ∧ s = 65536 * h + l :=
    ⟨s / 65536, s % 65536, Nat.mod_lt _ (by omega), by omega⟩
  obtain ⟨g, r, hr, rfl⟩ : ∃ g r, r < 256 ∧ h = 256 * g + r :=
    ⟨h / 256, h % 256, Nat.mod_lt _ (by omega), by omega⟩
  have hupper : (65536 * (256 * g + r) + l) / 65536 = 256 * g + r := by omega
  have hmasked : (256 * g + r) % 256 = r := by omega
  have hfold : (r + (65536 * (256 * g + r) + l)) % 65536 = (r + l) % 65536 := by omega
  rw [hupper, hmasked, hfold]
  by_cases hcarry : r + l < 65536
  · refine ⟨256 * g + r, 256 * g + b, ?_, ?_, ?_, ?_⟩ <;> omega
  · refine ⟨256 * g + r + 1, 256 * g + b + 1, ?_, ?_, ?_, ?_⟩ <;> omega

/-- With a byte `b` left out, the folded complement is that of the one's-complement sum just when the
byte is zero and the sum folds once. -/
theorem foldedComplement_eq_iff {ws : List Nat} {b : Nat} (hpos : 0 < ws.sum)
    (hsum : ws.sum < 2 ^ 31) (hb : b < 256) :
    foldedComplement ws = 65535 - residue 65535 (ws.sum + b) ↔ b = 0 ∧ FoldsOnce ws.sum := by
  obtain ⟨n, e, hn, he, hzero, hword⟩ := fold_error hsum hb
  have hx : (ws.sum / 65536 % 256 + ws.sum) % 65536 < 65536 := Nat.mod_lt _ (by omega)
  have hle := residue_le (m := 65535) (by omega) (ws.sum + b)
  rw [foldedComplement_eq (by omega), ← hzero]
  rw [residue_of_pos (by omega), hn] at hle ⊢
  generalize (ws.sum / 65536 % 256 + ws.sum) % 65536 = x at *
  omega

/-- A receiver adds the words, the byte that was left out and the folded complement.  It finds
{lit}`0xffff` just when the byte is zero and the sum folds once. -/
theorem foldedComplement_verifies_iff {ws : List Nat} {b : Nat} (hsum : ws.sum < 2 ^ 31)
    (hb : b < 256) :
    residue 65535 (ws.sum + b + foldedComplement ws) = 65535 ↔ b = 0 ∧ FoldsOnce ws.sum := by
  obtain ⟨n, e, hn, he, hzero, -⟩ := fold_error hsum hb
  have hx : (ws.sum / 65536 % 256 + ws.sum) % 65536 < 65536 := Nat.mod_lt _ (by omega)
  have htotal : ws.sum + b + foldedComplement ws = 65535 * (n + 1) + e := by
    rw [foldedComplement_eq (by omega)]
    omega
  rw [htotal, ← hzero, residue_of_pos (by omega)]
  omega

/-! ## IPv4 headers -/

/-- `__calculate_checksum` of the IPv4 layer for a header as it stands in memory. -/
def headerChecksum (header : List UInt8) : Nat := foldedComplement ((words header).take 10)

/-- The function does the same with the words of a datagram. -/
theorem calculateChecksum_eq {header : List UInt8} {d : Ipv4Datagram}
    (hwords : words header = d.words) : calculateChecksum d = headerChecksum header := by
  rw [headerChecksum, hwords]
  rfl

/-- The header that is sent, with its checksum stored. -/
def checkedHeader (header : List UInt8) : List UInt8 := storeWord header 10 (headerChecksum header)

/-- The checksum of a header of 20 bytes makes the one's-complement sum of its words `0xffff` just when
adding the upper part of their sum to the lower one does not carry. -/
theorem ipv4_checksum_right_iff {header : List UInt8} (hlength : header.length = 20)
    (hlow : header[10]? = some 0) (hhigh : header[11]? = some 0) :
    onesSum 65535 (words (checkedHeader header)) = 0xffff ↔
      (words header).sum / 2 ^ 16 + (words header).sum % 2 ^ 16 < 2 ^ 16 := by
  have hten : (words header).length = 10 := by rw [words_length, hlength]
  have hsmall := words_sum_le header
  rw [hlength] at hsmall
  have hchecksum : headerChecksum header = foldedComplement (words header) := by
    rw [headerChecksum, List.take_of_length_le hten.le]
  have hsum : (words (checkedHeader header)).sum =
      (words header).sum + 0 + foldedComplement (words header) := by
    rw [checkedHeader, hchecksum]
    exact words_sum_storeWord (by decide) hlow hhigh (foldedComplement_le _)
  rw [onesSum_eq_residue (by omega) (words_le _), hsum,
    foldedComplement_verifies_iff (by omega) (by omega), FoldsOnce]
  constructor
  · rintro ⟨-, -, hfold⟩
    exact hfold
  · intro hfold
    exact ⟨rfl, by omega, hfold⟩

/-- A header from 192.168.1.1 to 10.0.2.2. -/
def carryingHeader : List UInt8 :=
  [0x45, 0, 0x05, 0xdc, 0x68, 0x66, 0, 0, 0x80, 0x11, 0, 0, 192, 168, 1, 1, 10, 0, 2, 2]

/-- A header with another identification, whose sum is one less. -/
def foldingHeader : List UInt8 :=
  [0x45, 0, 0x05, 0xdc, 0x67, 0x66, 0, 0, 0x80, 0x11, 0, 0, 192, 168, 1, 1, 10, 0, 2, 2]

theorem foldingHeader_accepted : onesSum 65535 (words (checkedHeader foldingHeader)) = 0xffff :=
  (ipv4_checksum_right_iff rfl rfl rfl).mpr (by decide)

/-- The fold carries, and the receiver finds 1 in place of `0xffff`. -/
theorem carryingHeader_refused :
    carryingHeader.length = 20 ∧ headerChecksum carryingHeader = 0xffff ∧
      onesSum 65535 (words (checkedHeader carryingHeader)) = 1 := by
  decide

/-! ## TCP segments -/

/-- The pseudo header of `__calculate_checksum`, whose addresses stand in memory as they are sent. -/
def pseudoHeader (src dst : UInt32) (size : Nat) : List Nat :=
  [src.toNat % 2 ^ 16, src.toNat / 2 ^ 16, dst.toNat % 2 ^ 16, dst.toNat / 2 ^ 16, protoTcp * 256,
    n2h16 (u16 size)]

/-- The bytes that the loop of `__calculate_checksum` over `transport.size / 2` words reads. -/
def wholeWords (segment : List UInt8) : List UInt8 := segment.take (segment.length / 2 * 2)

/-- `__calculate_checksum` of the TCP layer for a segment as it stands in memory. -/
def tcpSegmentChecksum (src dst : UInt32) (segment : List UInt8) : Nat :=
  foldedComplement (pseudoHeader src dst segment.length ++ words (wholeWords segment))

/-- For a segment without payload it is the checksum of the header. -/
theorem tcpChecksum_eq {src dst : UInt32} {segment : List UInt8} {tcp : TcpHeader}
    (hlength : segment.length = 20) (hwords : words segment = tcp.words) :
    tcpChecksum src.toNat dst.toNat tcp = tcpSegmentChecksum src dst segment := by
  have hwhole : wholeWords segment = segment := by
    rw [wholeWords, hlength]
    exact List.take_of_length_le hlength.le
  rw [tcpSegmentChecksum, hwhole, hwords, hlength, foldedComplement, List.sum_append]
  rfl

/-- The words that the checksum of a segment covers: those of the pseudo header and those of the segment,
padded with a zero byte to even length. -/
def coveredWords (src dst : UInt32) (segment : List UInt8) : List Nat :=
  pseudoHeader src dst segment.length ++ words segment

/-- The segment that is sent, with its checksum stored. -/
def checkedSegment (src dst : UInt32) (segment : List UInt8) : List UInt8 :=
  storeWord segment 16 (tcpSegmentChecksum src dst segment)

/-- The last byte of a segment of odd length. -/
def oddByte (segment : List UInt8) : Nat := (words (segment.drop (segment.length / 2 * 2))).sum

theorem oddByte_lt (segment : List UInt8) : oddByte segment < 256 := by
  have hlength : (segment.drop (segment.length / 2 * 2)).length < 2 := by
    rw [List.length_drop]
    omega
  unfold oddByte
  generalize segment.drop (segment.length / 2 * 2) = rest at *
  match rest, hlength with
  | [], _ => simp [words]
  | [b], _ => simpa [words] using b.toNat_lt

theorem pseudoHeader_le (src dst : UInt32) (size : Nat) : ∀ w ∈ pseudoHeader src dst size, w ≤ 65535 := by
  have hsrc := src.toNat_lt
  have hdst := dst.toNat_lt
  simp only [pseudoHeader, List.forall_mem_cons, List.not_mem_nil, false_imp_iff, implies_true,
    and_true, protoTcp, n2h16]
  refine ⟨?_, ?_, ?_, ?_, ?_, ?_⟩ <;> omega

/-- The sum of all words is that of the words that are added and of the byte that is left out. -/
theorem coveredWords_sum (src dst : UInt32) (segment : List UInt8) :
    (coveredWords src dst segment).sum =
      (pseudoHeader src dst segment.length ++ words (wholeWords segment)).sum + oddByte segment := by
  have heven : Even (segment.take (segment.length / 2 * 2)).length := by
    rw [List.length_take, Nat.min_eq_left (by omega)]
    exact even_two.mul_left _
  have hsplit := words_append heven (segment.drop (segment.length / 2 * 2))
  rw [List.take_append_drop] at hsplit
  rw [coveredWords, hsplit, oddByte, wholeWords]
  simp only [List.sum_append, Nat.add_assoc]

/-- Storing the checksum adds it to the words that are covered. -/
theorem coveredWords_checkedSegment {src dst : UInt32} {segment : List UInt8}
    (hlow : segment[16]? = some 0) (hhigh : segment[17]? = some 0) :
    (coveredWords src dst (checkedSegment src dst segment)).sum =
      (coveredWords src dst segment).sum + tcpSegmentChecksum src dst segment := by
  have hlength : (checkedSegment src dst segment).length = segment.length := by
    have hlast := (List.getElem?_eq_some_iff.mp hhigh).1
    simp only [checkedSegment, storeWord, List.length_append, List.length_take, List.length_cons,
      List.length_nil, List.length_drop]
    omega
  have hword : tcpSegmentChecksum src dst segment ≤ 65535 := foldedComplement_le _
  rw [coveredWords, coveredWords, hlength, List.sum_append, List.sum_append, checkedSegment,
    words_sum_storeWord (by decide) hlow hhigh hword, ← Nat.add_assoc]

/-- A segment whose checksum is right: it has no odd byte, or a zero one, and the sum of the words that are
covered folds once. -/
structure TcpFolds (src dst : UInt32) (segment : List UInt8) : Prop where
  odd : oddByte segment = 0
  folds : FoldsOnce (coveredWords src dst segment).sum

/-- The checksum of a segment is the one's complement of the one's-complement sum of all words that it
covers, and a receiver finds `0xffff`, just when no byte is lost and the sum folds once. -/
theorem tcp_checksum_right_iff {src dst : UInt32} {segment : List UInt8}
    (hlength : segment.length ≤ 65515) (hlow : segment[16]? = some 0)
    (hhigh : segment[17]? = some 0) :
    (tcpSegmentChecksum src dst segment =
          0xffff - onesSum 65535 (coveredWords src dst segment) ∧
        onesSum 65535 (coveredWords src dst (checkedSegment src dst segment)) = 0xffff) ↔
      TcpFolds src dst segment := by
  have hcovered := coveredWords_sum src dst segment
  have hodd := oddByte_lt segment
  have hwords : ∀ segment : List UInt8, ∀ w ∈ coveredWords src dst segment, w ≤ 65535 := by
    intro segment w hw
    rcases List.mem_append.mp hw with hpseudo | hsegment
    · exact pseudoHeader_le src dst _ w hpseudo
    · exact words_le segment w hsegment
  have hpos : 0 < (pseudoHeader src dst segment.length ++ words (wholeWords segment)).sum := by
    rw [List.sum_append, pseudoHeader]
    simp only [List.sum_cons, protoTcp]
    omega
  have hsmall : (pseudoHeader src dst segment.length ++ words (wholeWords segment)).sum < 2 ^ 31 := by
    have hpseudo := List.sum_le_card_nsmul _ 65535 (pseudoHeader_le src dst segment.length)
    have hwhole := words_sum_le (wholeWords segment)
    have hbound : (wholeWords segment).length ≤ 65515 := by
      rw [wholeWords, List.length_take]
      omega
    have hsix : (pseudoHeader src dst segment.length).length = 6 := rfl
    rw [hsix, smul_eq_mul] at hpseudo
    rw [List.sum_append]
    omega
  rw [onesSum_eq_residue (by omega) (hwords _), onesSum_eq_residue (by omega) (hwords _),
    coveredWords_checkedSegment hlow hhigh, hcovered, tcpSegmentChecksum,
    foldedComplement_eq_iff hpos hsmall hodd, foldedComplement_verifies_iff hsmall hodd, and_self_iff]
  constructor
  · rintro ⟨hzero, hfolds⟩
    exact ⟨hzero, by rwa [hcovered, hzero, Nat.add_zero]⟩
  · rintro ⟨hzero, hfolds⟩
    rw [hcovered, hzero, Nat.add_zero] at hfolds
    exact ⟨hzero, hfolds⟩

/-- A header without payload. -/
def emptySegment : List UInt8 :=
  [0x1f, 0x90, 0, 80, 0, 0, 0, 1, 0, 0, 0, 2, 0x50, 0x10, 0x05, 0xb4, 0, 0, 0, 0]

theorem emptySegment_accepted :
    tcpSegmentChecksum 1 2 emptySegment = 0xffff - onesSum 65535 (coveredWords 1 2 emptySegment) ∧
      onesSum 65535 (coveredWords 1 2 (checkedSegment 1 2 emptySegment)) = 0xffff :=
  (tcp_checksum_right_iff (by decide) rfl rfl).mpr ⟨by decide, by decide⟩

/-- One byte of payload is not covered by the checksum. -/
theorem odd_byte_not_covered :
    (emptySegment ++ [7]).length = 21 ∧
      tcpSegmentChecksum 1 2 (emptySegment ++ [7]) ≠
        0xffff - onesSum 65535 (coveredWords 1 2 (emptySegment ++ [7])) ∧
      onesSum 65535 (coveredWords 1 2 (checkedSegment 1 2 (emptySegment ++ [7]))) = 7 := by
  decide

end Net
end Micael

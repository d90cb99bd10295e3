import Mathlib.Data.BitVec
import Mathlib.Data.List.GetD
import Mathlib.Tactic.NormNum

/-!
# Subnets

`CSubNet` keeps a netmask of sixteen bytes, of which an IPv4 address uses four. It is made from the
number of leading ones or from a mask in the form of an address, and it is printed with the number.
How an address is printed is a parameter.
-/
namespace DripCore
open List

inductive Network where
  | unroutable | ipv4 | ipv6 | onion | i2p | cjdns | internal | max
deriving DecidableEq

/-- The size of an address of a network that has netmasks. -/
def Network.ipSize : Network → Option ℕ
  | .ipv4 => some 4
  | .ipv6 => some 16
  | _ => none

abbrev AddrBytes := List (BitVec 8)

structure CNetAddr where
  m_net : Network
  m_addr : AddrBytes
  size : ∀ n, m_net.ipSize = some n → m_addr.length = n

namespace CNetAddr

/-- An address without a name: the unspecified one of IPv6. -/
def empty : CNetAddr := ⟨.ipv6,replicate 16 0,by rintro n ⟨⟩; rfl⟩

def isRFC3849 (a : CNetAddr) : Bool :=
  a.m_net == .ipv6 && [0x20#8,0x01#8,0x0D#8,0xB8#8].isPrefixOf a.m_addr

def isValid (a : CNetAddr) : Bool :=
  if a.m_net = .ipv6 ∧ a.m_addr = replicate 16 0 then false
  else if a.m_net = .cjdns ∧ a.m_addr.head? ≠ some 0xFC#8 then false
  else if a.isRFC3849 then false
  else if a.m_net = .internal then false
  else if a.m_net = .ipv4 ∧ (a.m_addr = replicate 4 0 ∨ a.m_addr = replicate 4 0xFF#8) then false
  else true

def normalize (a : CNetAddr) (netmask : AddrBytes) : CNetAddr where
  m_net := a.m_net
  m_addr := a.m_addr.mapIdx fun x b => b &&& netmask.getD x 0
  size := fun n h => length_mapIdx.trans (a.size n h)

end CNetAddr

structure CSubNet where
  network : CNetAddr
  netmask : AddrBytes
  valid : Bool

namespace CSubNet

def invalid : CSubNet := ⟨.empty,replicate 16 0,false⟩

/-- The bytes of a mask with `n` ones. -/
def netmaskBytes : ℕ → ℕ → AddrBytes
  | 0, _ => []
  | size+1, n =>
    let bits := if n < 8 then n else 8
    (0xFF#8 <<< (8-bits))::netmaskBytes size (n-bits)

/-- The array of sixteen bytes, which is zero before. -/
def padded (l : AddrBytes) : AddrBytes := l++replicate (16-l.length) 0

def ofLength (addr : CNetAddr) (mask : ℕ) : CSubNet :=
  match addr.m_net.ipSize with
  | none => invalid
  | some size =>
    if mask ≤ size*8 then
      let netmask := padded (netmaskBytes size mask)
      ⟨addr.normalize netmask,netmask,true⟩
    else invalid

def netmaskBits (x : BitVec 8) : ℤ :=
  match x.toNat with
  | 0x00 => 0
  | 0x80 => 1
  | 0xc0 => 2
  | 0xe0 => 3
  | 0xf0 => 4
  | 0xf8 => 5
  | 0xfc => 6
  | 0xfe => 7
  | 0xff => 8
  | _ => -1

/-- The check for ones after zeros. -/
def contiguous (zeros_found : Bool) : AddrBytes → Bool
  | [] => true
  | b::l =>
    let num_bits := netmaskBits b
    if num_bits = -1 ∨ zeros_found = true ∧ num_bits ≠ 0 then false
    else contiguous (zeros_found || num_bits < 8) l

def ofMask (addr mask : CNetAddr) : CSubNet :=
  if addr.m_net.ipSize.isSome ∧ addr.m_net = mask.m_net ∧ contiguous false mask.m_addr = true then
    let netmask := padded mask.m_addr
    ⟨addr.normalize netmask,netmask,true⟩
  else invalid

def matchAddr (s : CSubNet) (addr : CNetAddr) : Bool :=
  if !s.valid || !addr.isValid || s.network.m_net != addr.m_net then false
  else match s.network.m_net with
    | .ipv4 | .ipv6 => (range addr.m_addr.length).all fun x =>
      addr.m_addr.getD x 0 &&& s.netmask.getD x 0 == s.network.m_addr.getD x 0
    | .onion | .i2p | .cjdns | .internal => addr.m_addr == s.network.m_addr
    | .unroutable | .max => false

def cidrLoop (cidr : BitVec 8) : AddrBytes → BitVec 8
  | [] => cidr
  | b::l => if b = 0 then cidr else cidrLoop (cidr+BitVec.ofInt 8 (netmaskBits b)) l

def toString (toStringAddr : CNetAddr → String) (s : CSubNet) : String :=
  toStringAddr s.network++match s.network.m_net.ipSize with
    | none => ""
    | some size => "/" ++ Nat.repr (cidrLoop 0#8 (s.netmask.take size)).toNat

/-- The bits of an address, from the first one on. -/
def bitAt (l : AddrBytes) (i : ℕ) : Bool := (l.getD (i / 8) 0).getMsbD (i % 8)

theorem bytes_eq_iff {f g : ℕ → BitVec 8} {n : ℕ} : (∀ x < n, f x = g x) ↔
    ∀ i < n*8, (f (i/8)).getMsbD (i%8) = (g (i/8)).getMsbD (i%8) := by
  refine ⟨fun h i hi => by rw [h _ (by omega)],fun h x hx => BitVec.eq_of_getMsbD_eq fun j hj => ?_⟩
  have hb := h (x*8+j) (by omega)
  rwa [show (x*8+j)/8 = x by omega,show (x*8+j)%8 = j by omega] at hb

theorem ext_bitAt {l r : AddrBytes} (hl : l.length = r.length)
    (h : ∀ i < l.length*8, bitAt l i = bitAt r i) : l = r := by
  refine ext_getElem hl fun x hx hr => ?_
  have hb := (bytes_eq_iff (f := fun x => l.getD x 0) (g := fun x => r.getD x 0)).mpr h x hx
  rwa [getD_eq_getElem _ _ hx,getD_eq_getElem _ _ hr] at hb

theorem bitAt_append {l r : AddrBytes} {i : ℕ} (hi : i < l.length*8) :
    bitAt (l++r) i = bitAt l i := by
  rw [bitAt,getD_append _ _ _ _ (by omega),bitAt]

theorem bitAt_normalize {a : CNetAddr} {l : AddrBytes} {i : ℕ} (hi : i < a.m_addr.length*8) :
    bitAt (a.normalize l).m_addr i = (bitAt a.m_addr i && bitAt l i) := by
  have hx : i/8 < a.m_addr.length := by omega
  rw [bitAt,bitAt,bitAt,CNetAddr.normalize,getD_eq_getElem _ _ (by rwa [length_mapIdx]),
    getElem_mapIdx,
    getD_eq_getElem _ _ hx,BitVec.getMsbD_and]

variable {size n : ℕ}

theorem size_le {net : Network} (h : net.ipSize = some size) : size ≤ 16 := by
  cases net <;> cases h <;> decide

theorem netmaskBytes_succ : netmaskBytes (size+1) n = (0xFF#8 <<< (8-min n 8))::netmaskBytes size
    (n-8) := by
  have hb : (if n < 8 then n else 8) = min n 8 := by
    split_ifs <;> omega
  rw [netmaskBytes,hb,show n-min n 8 = n-8 by omega]

theorem length_netmaskBytes : (netmaskBytes size n).length = size := by
  induction size generalizing n with
  | zero => rfl
  | succ size ih => rw [netmaskBytes,length_cons,ih]

theorem bitAt_netmaskBytes {i : ℕ} (hi : i < size*8) :
    bitAt (netmaskBytes size n) i = decide (i < n) := by
  have hb : ∀ k ≤ 8, ∀ j < 8, (0xFF#8 <<< (8-k)).getMsbD j = decide (j < k) := by decide
  induction size generalizing n i with
  | zero => omega
  | succ size ih =>
    rw [bitAt,netmaskBytes_succ]
    by_cases h8 : i < 8
    · rw [show i/8 = 0 by omega,show i%8 = i by omega,getD_cons_zero,hb _ (by omega) i h8,
        decide_eq_decide]
      omega
    · have hs := ih (n := n-8) (i := i-8) (by omega)
      rw [bitAt] at hs
      rw [show i/8 = (i-8)/8+1 by
        omega,show i%8 = (i-8)%8 by omega,getD_cons_succ,hs,decide_eq_decide]
      omega

/-- The table is the inverse of the shift. -/
theorem netmaskBits_shift : ∀ k : ℕ, k ≤ 8 → netmaskBits (0xFF#8 <<< (8-k)) = k := by decide

theorem eq_shift_of_netmaskBits : ∀ b : BitVec 8, netmaskBits b = -1 ∨
    ∃ k : ℕ, k ≤ 8 ∧ netmaskBits b = k ∧ b = 0xFF#8 <<< (8-k) := by
  decide +kernel

theorem contiguous_netmaskBytes {z : Bool} (hz : z = true → n = 0) :
    contiguous z (netmaskBytes size n) = true := by
  induction size generalizing n z with
  | zero => rfl
  | succ size ih =>
    rw [netmaskBytes_succ,contiguous,netmaskBits_shift _ (by omega),if_neg]
    · refine ih fun h => ?_
      rcases Bool.or_eq_true_iff.mp h with h | h
      · rw [hz h]
      · have hk := of_decide_eq_true h
        omega
    · rintro (h | ⟨h,hn⟩)
      · omega
      · rw [hz h] at hn
        exact hn rfl

theorem exists_of_contiguous {z : Bool} {l : AddrBytes} (h : contiguous z l = true) :
    ∃ m ≤ l.length*8, (z = true → m = 0) ∧ l = netmaskBytes l.length m := by
  induction l generalizing z with
  | nil => exact ⟨0,le_rfl,fun _ => rfl,rfl⟩
  | cons b l ih =>
    rw [contiguous] at h
    split_ifs at h with hb
    rw [not_or,not_and_not_right] at hb
    obtain ⟨k,hk,he,rfl⟩ := (eq_shift_of_netmaskBits b).resolve_left hb.1
    obtain ⟨m,hm,hz,hl⟩ := ih h
    rw [he] at hz hb
    -- after a byte that is not full nothing follows
    have hz' : z = true ∨ k < 8 → m = 0 := by simpa using hz
    refine ⟨k+m,by rw [length_cons]; omega,fun hzt => ?_,?_⟩
    · have hk0 := hb.2 hzt
      have hm0 := hz' (.inl hzt)
      omega
    · have hn : min (k+m) 8 = k ∧ k+m-8 = m := by
        by_cases h8 : k < 8
        · have hm0 := hz' (.inr h8)
          omega
        · omega
      rw [length_cons,netmaskBytes_succ,hn.1,hn.2,← hl]

theorem cidrLoop_netmaskBytes {c : BitVec 8} (hn : n ≤ size*8) :
    cidrLoop c (netmaskBytes size n) = c+BitVec.ofNat 8 n := by
  have hz : ∀ k ≤ 8, 0xFF#8 <<< (8-k) = 0 ↔ k = 0 := by decide
  induction size generalizing n c with
  | zero =>
    obtain rfl : n = 0 := by omega
    exact (BitVec.add_zero c).symm
  | succ size ih =>
    rw [netmaskBytes_succ,cidrLoop,netmaskBits_shift _ (by omega)]
    split_ifs with h
    · obtain rfl : n = 0 := by
        have h0 := (hz _ (by omega)).mp h
        omega
      exact (BitVec.add_zero c).symm
    · rw [ih (by omega),BitVec.ofInt_natCast,BitVec.add_assoc,← BitVec.ofNat_add,
        show min n 8+(n-8) = n by omega]

/-- The bits of the subnet's address and of another one agree where the mask has ones. -/
theorem matchAddr_iff {a x : CNetAddr} {l : AddrBytes} (ha : a.m_net.ipSize = some size)
    (hx : x.isValid = true) (hl : ∀ i < size*8, bitAt l i = decide (i < n)) (hn : n ≤ size*8) :
    matchAddr ⟨a.normalize l,l,true⟩ x = true ↔
      x.m_net = a.m_net ∧ ∀ i < n, bitAt x.m_addr i = bitAt a.m_addr i := by
  by_cases hm : x.m_net = a.m_net
  · have he := a.size _ ha
    have he' := x.size _ (hm ▸ ha)
    have ho : matchAddr ⟨a.normalize l,l,true⟩ x = (range x.m_addr.length).all fun y =>
        x.m_addr.getD y 0 &&& l.getD y 0 == (a.normalize l).m_addr.getD y 0 := by
      rw [matchAddr,if_neg (by simp [hx,CNetAddr.normalize,hm])]
      dsimp only [CNetAddr.normalize]
      cases h : a.m_net
      case ipv4 | ipv6 => rfl
      all_goals
        rw [h] at ha
        exact nomatch ha
    rw [ho,he',all_eq_true]
    simp only [mem_range,beq_iff_eq]
    rw [bytes_eq_iff (f := fun y => x.m_addr.getD y 0 &&& l.getD y 0)
      (g := fun y => (a.normalize l).m_addr.getD y 0)]
    simp only [BitVec.getMsbD_and]
    change (∀ i < size*8, (bitAt x.m_addr i && bitAt l i) = bitAt (a.normalize l).m_addr i) ↔ _
    constructor
    · refine fun h => ⟨hm,fun i hi => ?_⟩
      have hb := h i (by omega)
      rw [bitAt_normalize (by omega),hl i (by omega),decide_eq_true hi,Bool.and_true,
        Bool.and_true] at hb
      exact hb
    · rintro ⟨-,h⟩ i hi
      rw [bitAt_normalize (by omega),hl i hi]
      by_cases hin : i < n
      · rw [h i hin]
      · rw [decide_eq_false hin,Bool.and_false,Bool.and_false]
  · rw [matchAddr,if_pos (by simp [CNetAddr.normalize,Ne.symm hm])]
    exact iff_of_false Bool.false_ne_true fun h => hm h.1

section

variable {a mask : CNetAddr} (ha : a.m_net.ipSize = some size)
include ha

theorem ofLength_eq (hn : n ≤ size*8) :
    ofLength a n = ⟨a.normalize (padded (netmaskBytes size n)),padded (netmaskBytes size n),
      true⟩ := by
  rw [ofLength,ha]
  exact if_pos hn

/-- A mask with these bits consists of the bytes that are built from the length. -/
theorem ofMask_eq (hm : mask.m_net = a.m_net) (hn : n ≤ size*8)
    (h : ∀ i < size*8, bitAt mask.m_addr i = decide (i < n)) : ofMask a mask = ofLength a n := by
  have hs := mask.size _ (hm ▸ ha)
  have hy : mask.m_addr = netmaskBytes size n := by
    refine ext_bitAt (hs.trans length_netmaskBytes.symm) fun i hi => ?_
    rw [hs] at hi
    rw [h i hi,bitAt_netmaskBytes hi]
  have hc : contiguous false mask.m_addr = true := by
    rw [hy]
    exact contiguous_netmaskBytes fun h => nomatch h
  rw [ofMask,if_pos ⟨by rw [ha]; rfl,hm.symm,hc⟩,hy,ofLength_eq ha hn]

theorem bits_of_valid (hm : mask.m_net = a.m_net) (h : (ofMask a mask).valid = true) :
    ∃ m ≤ size*8, ∀ i < size*8, bitAt mask.m_addr i = decide (i < m) := by
  rw [ofMask] at h
  split_ifs at h with hc
  · obtain ⟨m,hl,-,he⟩ := exists_of_contiguous hc.2.2
    rw [mask.size _ (hm ▸ ha)] at hl he
    exact ⟨m,hl,fun i hi => by rw [he,bitAt_netmaskBytes hi]⟩
  · exact nomatch h

theorem toString_ofLength (f : CNetAddr → String) (hn : n ≤ size*8) :
    (ofLength a n).toString f = f (ofLength a n).network++("/"++Nat.repr n) := by
  have hl : n < 2^8 := by
    have := size_le ha
    omega
  rw [ofLength_eq ha hn,CSubNet.toString]
  dsimp only [CNetAddr.normalize]
  rw [ha]
  dsimp only
  rw [padded,take_left' length_netmaskBytes,cidrLoop_netmaskBytes hn,BitVec.zero_add,
    BitVec.toNat_ofNat,
    Nat.mod_eq_of_lt hl]

end

/-- A subnet is a prefix, however it is made. -/
theorem subNet_prefix_exact (toStringAddr : CNetAddr → String) (a : CNetAddr) (size : ℕ)
    (ha : a.m_net.ipSize = some size) :
    (∀ m ≤ size * 8, (ofLength a m).valid = true ∧ ∀ x : CNetAddr, x.isValid = true →
      ((ofLength a m).matchAddr x = true ↔
        x.m_net = a.m_net ∧ ∀ i < m, bitAt x.m_addr i = bitAt a.m_addr i)) ∧
    ∀ mask : CNetAddr, mask.m_net = a.m_net →
      ((ofMask a mask).valid = true ↔ ∃ m ≤ size * 8, ∀ i < size * 8,
        bitAt mask.m_addr i = decide (i < m)) ∧
      ∀ m ≤ size * 8, (∀ i < size * 8, bitAt mask.m_addr i = decide (i < m)) →
        ofMask a mask = ofLength a m ∧ (ofMask a mask).toString toStringAddr =
            toStringAddr (ofLength a m).network ++ ("/" ++ Nat.repr m) := by
  refine ⟨fun m hm => ⟨by rw [ofLength_eq ha hm],fun x hx => ?_⟩,
    fun mask hn => ⟨⟨bits_of_valid ha hn,?_⟩,?_⟩⟩
  · rw [ofLength_eq ha hm]
    refine matchAddr_iff ha hx (fun i hi => ?_) hm
    rw [padded,bitAt_append (by rwa [length_netmaskBytes]),bitAt_netmaskBytes hi]
  · rintro ⟨m,hm,hb⟩
    rw [ofMask_eq ha hn hm hb,ofLength_eq ha hm]
  · intro m hm hb
    rw [ofMask_eq ha hn hm hb]
    exact ⟨rfl,toString_ofLength ha _ hm⟩

/-- The address `10.x.y.z`. -/
def tenNet (x y z : BitVec 8) : CNetAddr := ⟨.ipv4,[10,x,y,z],by rintro n ⟨⟩; rfl⟩

theorem subNet_prefix_exact_ipv4 : (ofLength (tenNet 1 2 3) 12).valid = true ∧
    (ofLength (tenNet 1 2 3) 12).matchAddr (tenNet 15 0 1) = true ∧
    ¬(ofLength (tenNet 1 2 3) 12).matchAddr (tenNet 16 0 1) = true ∧
    ofMask (tenNet 1 2 3) ⟨.ipv4, [255, 240, 0, 0], by rintro n ⟨⟩; rfl⟩ =
      ofLength (tenNet 1 2 3) 12 := by
  obtain ⟨hl,hm⟩ := subNet_prefix_exact (fun _ => "") (tenNet 1 2 3) 4 rfl
  obtain ⟨hv,ha⟩ := hl 12 (by decide)
  refine ⟨hv,(ha (tenNet 15 0 1) (by decide)).mpr ⟨rfl,by decide⟩,fun h => ?_,?_⟩
  · exact absurd (((ha (tenNet 16 0 1) (by decide)).mp h).2 11 (by decide)) (by decide)
  · exact ((hm ⟨.ipv4,[255,240,0,0],_⟩ rfl).2 12 (by decide) (by decide)).1

end CSubNet
end DripCore

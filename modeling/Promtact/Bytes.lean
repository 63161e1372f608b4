import Mathlib

/-!
# Bytes

Fixed-width numbers in little-endian order, and the CRC-32C checksum. A number is
put into a given count of bytes, and what does not fit is lost; bytes are read back
as a number. A change of one byte shows in the checksum (`crc32c_set_ne`): every step of
the division can be undone.
-/

namespace Bytes

/-! ## Numbers -/

/-- The `width` low bytes of `x`, the lowest first. -/
def put : Nat → Nat → List UInt8
  | 0, _ => []
  | width + 1, x => UInt8.ofNat x :: put width (x / 256)

/-- The number that the bytes stand for. -/
def get : List UInt8 → Nat
  | [] => 0
  | b :: bs => b.toNat + 256 * get bs

@[simp] theorem length_put (width x : Nat) : (put width x).length = width := by
  induction width generalizing x with
  | zero => rfl
  | succ width ih => rw [put, List.length_cons, ih]

/-- Reading back what was put keeps what fits. -/
theorem get_put (width x : Nat) : get (put width x) = x % 256 ^ width := by
  induction width generalizing x with
  | zero => simp [put, get, Nat.mod_one]
  | succ width ih =>
    have hlow : (UInt8.ofNat x).toNat = x % 256 := UInt8.toNat_ofNat'
    rw [put, get, ih, hlow, Nat.pow_succ', Nat.mod_mul]

theorem get_put_of_lt {width x : Nat} (hx : x < 256 ^ width) : get (put width x) = x := by
  rw [get_put, Nat.mod_eq_of_lt hx]

theorem get_lt (bs : List UInt8) : get bs < 256 ^ bs.length := by
  induction bs with
  | nil => exact Nat.one_pos
  | cons b bs ih =>
    have hb : b.toNat < 256 := b.toNat_lt
    rw [get, List.length_cons, Nat.pow_succ']
    omega

/-- Bytes are the number that they stand for. -/
theorem put_get {bs : List UInt8} {width : Nat} (hw : bs.length = width) :
    put width (get bs) = bs := by
  subst hw
  induction bs with
  | nil => rfl
  | cons b bs ih =>
    have hb : b.toNat < 256 := b.toNat_lt
    have hlow : UInt8.ofNat (b.toNat + 256 * get bs) = b := by
      rw [← UInt8.toNat_inj, UInt8.toNat_ofNat', show 2 ^ 8 = 256 from rfl]
      omega
    have hhigh : (b.toNat + 256 * get bs) / 256 = get bs := by omega
    rw [List.length_cons, get, put, hlow, hhigh, ih]

def zeros (count : Nat) : List UInt8 := List.replicate count 0

@[simp] theorem length_zeros (count : Nat) : (zeros count).length = count := List.length_replicate

/-- Changing a bit changes the byte. -/
theorem xor_bit_ne (b : UInt8) {bit : Nat} (hbit : bit < 8) : b ^^^ (1 <<< UInt8.ofNat bit) ≠ b := by
  intro h
  have hzero : (1 : UInt8) <<< UInt8.ofNat bit = 0 :=
    (UInt8.xor_right_inj b).mp (h.trans (UInt8.xor_zero).symm)
  have hall : ∀ bit : Fin 8, (1 : UInt8) <<< UInt8.ofNat bit ≠ 0 := by decide
  exact hall ⟨bit, hbit⟩ hzero

/-! ## Slices -/

/-- The bytes from `first` up to `last`. -/
def slice (bs : List UInt8) (first last : Nat) : List UInt8 := (bs.drop first).take (last - first)

theorem slice_left {front back : List UInt8} {first last : Nat} (hl : last ≤ front.length) :
    slice (front ++ back) first last = slice front first last := by
  unfold slice
  rcases Nat.lt_or_ge front.length first with hlt | hge
  · rw [show last - first = 0 by omega, List.take_zero, List.take_zero]
  · rw [List.drop_append_of_le_length hge, List.take_append_of_le_length (by simp; omega)]

theorem slice_right {front back : List UInt8} {first last : Nat} (hf : front.length ≤ first) :
    slice (front ++ back) first last =
      slice back (first - front.length) (last - front.length) := by
  unfold slice
  rw [List.drop_append, List.drop_eq_nil_of_le hf, List.nil_append]
  congr 1
  omega

theorem slice_all {bs : List UInt8} {last : Nat} (hl : last = bs.length) : slice bs 0 last = bs := by
  subst hl
  simp [slice]

/-- The length of the bytes from `first` up to `last`, when they are there. -/
theorem length_slice {bs : List UInt8} {first last : Nat} (hl : last ≤ bs.length) :
    (slice bs first last).length = last - first := by
  simp only [slice, List.length_take, List.length_drop]
  omega

/-- A change shows in the slices that hold it, and in no others. -/
theorem slice_set (bs : List UInt8) (i : Nat) (b : UInt8) (first last : Nat) :
    slice (bs.set i b) first last =
      if i < first then slice bs first last else (slice bs first last).set (i - first) b := by
  unfold slice
  rw [List.drop_set]
  split
  · rfl
  · rw [List.take_set]

/-- Bytes of the same number are told apart by their value. -/
theorem get_injective {bs cs : List UInt8} (hlen : bs.length = cs.length) (h : get bs = get cs) :
    bs = cs :=
  calc
    bs = put bs.length (get bs) := (put_get rfl).symm
    _ = put cs.length (get cs) := by rw [h, hlen]
    _ = cs := put_get rfl

theorem slice_append_slice {bs : List UInt8} {first middle last : Nat} (hf : first ≤ middle)
    (hl : middle ≤ last) : slice bs first middle ++ slice bs middle last = slice bs first last := by
  unfold slice
  rw [show last - first = (middle - first) + (last - middle) by omega, List.take_add,
    List.drop_drop, show first + (middle - first) = middle by omega]

theorem slice_append_drop {bs : List UInt8} {first last : Nat} (hf : first ≤ last) :
    slice bs first last ++ bs.drop last = bs.drop first := by
  unfold slice
  have hdrop : bs.drop last = (bs.drop first).drop (last - first) := by
    rw [List.drop_drop, show first + (last - first) = last by omega]
  rw [hdrop, List.take_append_drop]

/-- A record is a list of fields; each of them is found behind the ones before it. -/
theorem slice_flatten {fields : List (List UInt8)} {i first last : Nat} {field : List UInt8}
    (hi : fields[i]? = some field) (hf : ((fields.map List.length).take i).sum = first)
    (hl : first + field.length = last) : slice fields.flatten first last = field := by
  induction fields generalizing i first last with
  | nil => cases hi
  | cons head fields ih =>
    rw [List.flatten_cons]
    cases i with
    | zero =>
      cases hi
      simp only [List.take_zero, List.sum_nil] at hf
      subst hf
      rw [slice_left (by omega), slice_all (by omega)]
    | succ i =>
      rw [List.getElem?_cons_succ] at hi
      rw [List.map_cons, List.take_succ_cons, List.sum_cons] at hf
      rw [slice_right (by omega)]
      exact ih hi (by omega) (by omega)

/-! ## Blocks -/

section Blocks

variable {blocks : List (List UInt8)} {size : Nat}

theorem length_flatten_blocks (h : ∀ block ∈ blocks, block.length = size) :
    blocks.flatten.length = blocks.length * size := by
  rw [List.length_flatten, List.map_congr_left h, List.map_const', List.sum_replicate_nat]

/-- A block is found behind those before it. -/
theorem slice_block {i : Nat} {block : List UInt8} (h : ∀ block ∈ blocks, block.length = size)
    (hi : blocks[i]? = some block) :
    slice blocks.flatten (i * size) ((i + 1) * size) = block := by
  have hlt := (List.getElem?_eq_some_iff.mp hi).1
  refine slice_flatten hi ?_ ?_
  · rw [List.map_congr_left h, List.map_const', List.take_replicate, List.sum_replicate_nat,
      Nat.min_eq_left (Nat.le_of_lt hlt)]
  · rw [h block (List.mem_of_getElem? hi), Nat.succ_mul]

/-- Cutting behind a block. -/
theorem take_flatten_blocks (h : ∀ block ∈ blocks, block.length = size) (n : Nat) :
    blocks.flatten.take (n * size) = (blocks.take n).flatten := by
  induction blocks generalizing n with
  | nil => simp
  | cons head blocks ih =>
    have hhead := h head List.mem_cons_self
    cases n with
    | zero => simp
    | succ n =>
      rw [List.flatten_cons, List.take_succ_cons, List.flatten_cons, List.take_append, hhead,
        List.take_of_length_le (by rw [Nat.succ_mul]; omega), Nat.succ_mul, Nat.add_sub_cancel,
        ih (fun block hb => h block (List.mem_cons_of_mem _ hb))]

theorem drop_flatten_blocks (h : ∀ block ∈ blocks, block.length = size) (n : Nat) :
    blocks.flatten.drop (n * size) = (blocks.drop n).flatten := by
  have hsplit : (blocks.take n).flatten ++ blocks.flatten.drop (n * size) =
      (blocks.take n).flatten ++ (blocks.drop n).flatten := by
    rw [← take_flatten_blocks h, List.take_append_drop, take_flatten_blocks h, ← List.flatten_append,
      List.take_append_drop]
  exact List.append_cancel_left hsplit

/-- Bytes of the right number are a list of blocks. -/
theorem exists_blocks {bs : List UInt8} (hsize : 0 < size) (hbs : bs.length % size = 0) :
    ∃ blocks : List (List UInt8), (∀ block ∈ blocks, block.length = size) ∧ bs = blocks.flatten := by
  induction hlen : bs.length using Nat.strong_induction_on generalizing bs with
  | _ n ih =>
    rcases Nat.eq_zero_or_pos n with hzero | hpos
    · refine ⟨[], nofun, ?_⟩
      exact List.length_eq_zero_iff.mp (hlen.trans hzero)
    · have hle : size ≤ bs.length := by
        refine Nat.le_of_not_lt fun hlt => ?_
        rw [Nat.mod_eq_of_lt hlt] at hbs
        omega
      have hrest : (bs.drop size).length % size = 0 := by
        rw [List.length_drop, ← Nat.mod_eq_sub_mod hle, hbs]
      obtain ⟨blocks, hblocks, heq⟩ := ih (n - size) (by omega) hrest (by rw [List.length_drop, hlen])
      refine ⟨bs.take size :: blocks, ?_, ?_⟩
      · intro block hb
        rcases List.mem_cons.mp hb with rfl | hb
        · rw [List.length_take]
          omega
        · exact hblocks block hb
      · rw [List.flatten_cons, ← heq, List.take_append_drop]

/-- A change of one byte is one in its block. -/
theorem set_block {i j : Nat} {block : List UInt8} {b : UInt8}
    (h : ∀ block ∈ blocks, block.length = size) (hi : blocks[i]? = some block) (hj : j < size) :
    blocks.flatten.set (i * size + j) b = (blocks.set i (block.set j b)).flatten := by
  induction blocks generalizing i with
  | nil => cases hi
  | cons head blocks ih =>
    have hhead := h head List.mem_cons_self
    rw [List.flatten_cons, List.set_append]
    cases i with
    | zero =>
      cases hi
      rw [if_pos (by omega), Nat.zero_mul, Nat.zero_add, List.set_cons_zero, List.flatten_cons]
    | succ i =>
      rw [if_neg (by rw [Nat.succ_mul]; omega), List.set_cons_succ, List.flatten_cons, hhead,
        ← ih (fun block hb => h block (List.mem_cons_of_mem _ hb)) hi,
        show (i + 1) * size + j - size = i * size + j by rw [Nat.succ_mul]; omega]

/-- A block takes the place of another. -/
theorem overwrite_block {i : Nat} {block : List UInt8} (h : ∀ block ∈ blocks, block.length = size)
    (hi : i < blocks.length) :
    blocks.flatten.take (i * size) ++ (block ++ blocks.flatten.drop ((i + 1) * size)) =
      (blocks.set i block).flatten := by
  induction blocks generalizing i with
  | nil => cases hi
  | cons head blocks ih =>
    have hhead := h head List.mem_cons_self
    rw [List.flatten_cons]
    cases i with
    | zero =>
      rw [Nat.zero_mul, List.take_zero, List.nil_append, Nat.one_mul, List.drop_left' hhead,
        List.set_cons_zero, List.flatten_cons]
    | succ i =>
      rw [List.set_cons_succ, List.flatten_cons,
        ← ih (fun block hb => h block (List.mem_cons_of_mem _ hb)) (by simpa using hi),
        Nat.succ_mul (i + 1), Nat.succ_mul, List.take_append, List.drop_append, hhead,
        List.take_of_length_le (by omega), List.drop_eq_nil_of_le (by omega), List.nil_append,
        Nat.add_sub_cancel, Nat.add_sub_cancel, List.append_assoc]

end Blocks

/-! ## Checksums -/

/-- One bit of the reflected CRC-32C division. -/
def crcBit (crc : BitVec 32) : BitVec 32 :=
  if crc.getLsbD 0 then (crc >>> 1) ^^^ 0x82F63B78 else crc >>> 1

/-- One byte of the division. -/
def crcByte (crc : BitVec 32) (b : UInt8) : BitVec 32 :=
  (List.range 8).foldl (fun crc _ => crcBit crc) (crc ^^^ BitVec.ofNat 32 b.toNat)

/-- The Castagnoli CRC-32 of the bytes. -/
def crc32c (bs : List UInt8) : Nat := (~~~ bs.foldl crcByte (BitVec.allOnes 32)).toNat

theorem crc32c_lt (bs : List UInt8) : crc32c bs < 256 ^ 4 := BitVec.isLt _

/-- The standard check value of the nine digits. -/
example : crc32c [0x31, 0x32, 0x33, 0x34, 0x35, 0x36, 0x37, 0x38, 0x39] = 0xE3069283 := by
  decide +kernel

theorem crcBit_injective : Function.Injective crcBit := by
  -- the top bit of the result is the low bit that was shifted out
  have htop : ∀ crc, (crcBit crc).getLsbD 31 = crc.getLsbD 0 := by
    intro crc
    unfold crcBit
    cases crc.getLsbD 0 <;> simp
  have hrest : ∀ crc i, i < 31 → (crcBit crc).getLsbD i =
      (crc.getLsbD (i + 1) ^^ ((crcBit crc).getLsbD 31 && (0x82F63B78#32).getLsbD i)) := by
    intro crc i hi
    rw [htop]
    unfold crcBit
    cases crc.getLsbD 0 <;> simp [Nat.add_comm]
  intro a b hab
  refine BitVec.eq_of_getLsbD_eq fun i hi => ?_
  cases i with
  | zero => rw [← htop a, ← htop b, hab]
  | succ i =>
    have ha := hrest a i (by omega)
    have hb := hrest b i (by omega)
    rw [hab, hb] at ha
    simpa using ha.symm

theorem crcBits_injective : Function.Injective fun crc : BitVec 32 =>
    (List.range 8).foldl (fun crc _ => crcBit crc) crc := by
  have hfold : ∀ steps : List Nat, Function.Injective fun crc : BitVec 32 =>
      steps.foldl (fun crc _ => crcBit crc) crc := by
    intro steps
    induction steps with
    | nil => exact fun _ _ h => h
    | cons _ steps ih => exact fun a b h => crcBit_injective (ih h)
  exact hfold _

/-- Different remainders stay different under the same byte. -/
theorem crcByte_left_injective (b : UInt8) : Function.Injective (crcByte · b) := by
  intro crc crc' h
  exact (BitVec.xor_left_inj _).mp (crcBits_injective h)

/-- Different bytes make different remainders. -/
theorem crcByte_right_injective (crc : BitVec 32) : Function.Injective (crcByte crc) := by
  intro b b' h
  have hxor : crc ^^^ BitVec.ofNat 32 b.toNat = crc ^^^ BitVec.ofNat 32 b'.toNat := crcBits_injective h
  have hbytes := (BitVec.xor_right_inj _).mp hxor
  have hlt : ∀ b : UInt8, b.toNat < 2 ^ 32 := fun b => Nat.lt_trans b.toNat_lt (by decide)
  rw [← BitVec.toNat_inj, BitVec.toNat_ofNat, BitVec.toNat_ofNat, Nat.mod_eq_of_lt (hlt b),
    Nat.mod_eq_of_lt (hlt b')] at hbytes
  exact UInt8.toNat_inj.mp hbytes

theorem crcBytes_injective (bs : List UInt8) : Function.Injective fun crc => bs.foldl crcByte crc := by
  induction bs with
  | nil => exact fun _ _ h => h
  | cons b bs ih => exact fun crc crc' h => crcByte_left_injective b (ih h)

/-- A change of one byte shows in the checksum. -/
theorem crc32c_set_ne {bs : List UInt8} {i : Nat} {b b' : UInt8} (hb : bs[i]? = some b)
    (hne : b' ≠ b) : crc32c (bs.set i b') ≠ crc32c bs := by
  intro h
  have hremainder : (bs.set i b').foldl crcByte (BitVec.allOnes 32) =
      bs.foldl crcByte (BitVec.allOnes 32) := BitVec.not_inj.mp (BitVec.toNat_inj.mp h)
  obtain ⟨hi, rfl⟩ := List.getElem?_eq_some_iff.mp hb
  have hsplit : bs = bs.take i ++ bs[i] :: bs.drop (i + 1) := by
    rw [List.getElem_cons_drop, List.take_append_drop]
  rw [List.set_eq_take_append_cons_drop, if_pos hi, List.foldl_append, List.foldl_cons] at hremainder
  conv_rhs at hremainder => rw [hsplit, List.foldl_append, List.foldl_cons]
  exact hne (crcByte_right_injective _ (crcBytes_injective _ hremainder))

end Bytes

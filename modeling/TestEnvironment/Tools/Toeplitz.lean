import TestEnvironment.Lib.Bits
import TestEnvironment.Lib.XorSums

/-!
The Toeplitz hash (`te_toeplitz.c`): a table with a word for every position and value of an
input byte, built from the key, against the sum of stretches of the key for the bits of the
input. Words in memory have the byte order of a little-endian platform.
-/
namespace TestEnvironment.Tools
open Lib

section

def TE_TOEPLITZ_IN_MAX (key_len : Nat) : Nat := key_len-4
def TE_TOEPLITZ_MIN_KEY_SIZE : Nat := 5
/-- A value of type `unsigned int`. -/
def unsigned (n : Nat) : Nat := n%2^32
/-- `te_toeplitz_hash_cache`. -/
structure ToeplitzHashCache where
  cache : Nat → BitVec 32
  max_in_size : Nat

/-- The loop of `te_toeplitz_hash_data`. -/
def hashLoop (cache : Nat → BitVec 32) : List UInt8 → Nat → BitVec 32 → BitVec 32
  | [], _, hash => hash
  | byte :: input, pos, hash => hashLoop cache input (unsigned (pos+1)) (hash ^^^ cache (unsigned (pos*256+byte.toNat)))
def te_toeplitz_hash_data (toeplitz_hash_cache : ToeplitzHashCache) (input : List UInt8) (pos : Nat) : BitVec 32 :=
  hashLoop toeplitz_hash_cache.cache input pos 0
/-- A `uint16_t` in memory. -/
def portBytes (port : UInt16) : List UInt8 := [port.toUInt8,(port >>> 8).toUInt8]
/-- Addresses are given by their bytes; `none` is a failed assertion. -/
def te_toeplitz_hash_sym_or_xor (cache : ToeplitzHashCache) (addr_size : Nat) (src_addr : Nat → UInt8) (src_port : UInt16)
    (dst_addr : Nat → UInt8) (dst_port : UInt16) : Option (BitVec 32) :=
  if 16 < addr_size ∨ cache.max_in_size < addr_size*2+2*2 then none
  else some (te_toeplitz_hash_data cache ((List.range addr_size).map (fun i => src_addr i ||| dst_addr i) ++
    (List.range addr_size).map (fun i => src_addr i ^^^ dst_addr i) ++
    portBytes (src_port ||| dst_port) ++ portBytes (src_port ^^^ dst_port)) 0)

/-- `key_bits` of `te_toeplitz_cache_init_size`, for what is left of the key. -/
def keyBits (key : List UInt8) : Nat → BitVec 32
  | 0 => BitVec.ofNat 32 (beNum (key.take 4))
  | j+1 => if ((key[4]?).getD 0).toNat &&& 2^(7-j) ≠ 0 then (keyBits key j <<< 1) ||| 1#32 else keyBits key j <<< 1
/-- `res` for a value of a byte. -/
def cacheEntry (key : List UInt8) (byte : Nat) : BitVec 32 :=
  (List.range 8).foldl (fun res j => if byte &&& 2^(7-j) ≠ 0 then res ^^^ keyBits key j else res) 0
/-- The loop over the values of a byte. -/
def fillEntries (key : List UInt8) (i : Nat) (cache : Nat → BitVec 32) : Nat → BitVec 32 :=
  (List.range 256).foldl (fun cache byte => fun index => if index = unsigned (i*256+byte) then cacheEntry key byte else cache index) cache
/-- The loop over the positions; `i` is an `unsigned int`. -/
def cacheLoop (key_size : Nat) : Nat → Nat → List UInt8 → (Nat → BitVec 32) → Option (Nat → BitVec 32)
  | 0, _, _, _ => none
  | fuel+1, i, key, cache =>
    if i < TE_TOEPLITZ_IN_MAX key_size then cacheLoop key_size fuel (unsigned (i+1)) key.tail (fillEntries key i cache)
    else some cache
/-- Also `none` when the loop does not end; the bound is the number of its turns. -/
def te_toeplitz_cache_init_size (key : List UInt8) : Option ToeplitzHashCache :=
  if key.length < TE_TOEPLITZ_MIN_KEY_SIZE then none
  else (cacheLoop key.length (key.length+1) 0 key fun _ => 0).map fun cache => ⟨cache,TE_TOEPLITZ_IN_MAX key.length⟩

end

section
variable {key : List UInt8} {i j p : Nat}

theorem and_mask (n k : Nat) : n &&& 2^k ≠ 0 ↔ n.testBit k = true := by simp [Nat.and_two_pow]
/-- The word of a bit of the byte is the stretch of the key from there on. -/
theorem keyBits_stretch (long : 5 ≤ key.length) (inside : j < 8) : keyBits key j = stretch (bitAt key) j 32 := by
  induction j with
  | zero =>
    refine BitVec.eq_of_getLsbD_eq fun k less => ?_
    have length : (key.take 4).length = 4 := by rw [length_take]; omega
    rw [keyBits,BitVec.getLsbD_ofNat,testBit_beNum,getLsbD_stretch,length,bitAt_take (by omega)]
    simp [less]
  | succ j ih => grind [stretch_next,and_mask,bitAt,keyBits]
theorem stretch_shift (bits : Nat → Bool) (k i n : Nat) : stretch (fun x => bits (k+x)) i n = stretch bits (k+i) n := by
  induction n with
  | zero => rfl
  | succ n ih => rw [stretch,stretch,ih,Nat.add_assoc]
theorem cacheEntry_sum (byte : Nat) : cacheEntry key byte = xorSum (fun j => if byte.testBit (7-j) then keyBits key j else 0) 8 := by
  have step : ∀ n, (List.range n).foldl (fun res j => if byte &&& 2^(7-j) ≠ 0 then res ^^^ keyBits key j else res) 0 =
      xorSum (fun j => if byte.testBit (7-j) then keyBits key j else 0) n := by
    intro n
    induction n with
    | zero => rfl
    | succ n ih => grind [List.range_succ,and_mask,xorSum]
  exact step 8
/-- The entry for a position and a byte: the stretches of the key for the bits of the byte. -/
theorem cacheEntry_drop (long : p+5 ≤ key.length) (byte : Nat) : cacheEntry (key.drop p) byte =
    xorSum (fun j => if byte.testBit (7-j) then stretch (bitAt key) (8*p+j) 32 else 0) 8 := by
  rw [cacheEntry_sum]
  refine xorSum_congr fun j inside => ?_
  have bits : bitAt (key.drop p) = fun x => bitAt key (8*p+x) := funext (bitAt_drop key p)
  rw [keyBits_stretch (by rw [length_drop]; omega) inside,bits,stretch_shift]

end

section
variable {key : List UInt8} {i p b fuel key_size : Nat} {cache : Nat → BitVec 32}

/-- The place of an entry in the table: the product wraps. -/
theorem unsigned_slot (p : Nat) (small : b < 256) : unsigned (p*256+b) = p%2^24*256+b := by
  rw [unsigned]
  omega
theorem fillEntries_slot (small : b < 256) :
    fillEntries key i cache (p%2^24*256+b) = if p%2^24 = i%2^24 then cacheEntry key b else cache (p%2^24*256+b) := by
  have step : ∀ n ≤ 256, (List.range n).foldl (fun cache byte => fun index =>
      if index = unsigned (i*256+byte) then cacheEntry key byte else cache index) cache (p%2^24*256+b) =
      if p%2^24 = i%2^24 ∧ b < n then cacheEntry key b else cache (p%2^24*256+b) := by
    intro n most
    induction n with
    | zero => rw [if_neg (by omega)]; rfl
    | succ n ih =>
      rw [List.range_succ,foldl_append,foldl_cons,foldl_nil,unsigned_slot i (by omega),ih (by omega)]
      by_cases here : p%2^24*256+b = i%2^24*256+n
      · grind
      · rw [if_neg here]
        exact if_congr (by omega) rfl rfl
  rw [fillEntries,step 256 (le_refl 256)]
  exact if_congr (and_iff_left small) rfl rfl
/-- The last position before `n` that has its entries in the same place. -/
def latest (n p : Nat) : Nat := p+2^24*((n-1-p)/2^24)

theorem latest_next (inside : p ≤ i) : latest (i+1) p = if p%2^24 = i%2^24 then i else latest i p := by
  rw [latest,latest]
  split_ifs <;> omega
theorem latest_inside {n : Nat} (inside : p < n) : latest n p < n := by
  rw [latest]
  omega
/-- The loop leaves in every place what it has written last. -/
theorem cacheLoop_spec (small : TE_TOEPLITZ_IN_MAX key.length < 2^32) (reached : i ≤ TE_TOEPLITZ_IN_MAX key.length)
    (enough : TE_TOEPLITZ_IN_MAX key.length < fuel+i)
    (filled : ∀ p < i, ∀ b < 256, cache (p%2^24*256+b) = cacheEntry (key.drop (latest i p)) b) :
    ∃ table, cacheLoop key.length fuel i (key.drop i) cache = some table ∧
      ∀ p < TE_TOEPLITZ_IN_MAX key.length, ∀ b < 256,
        table (p%2^24*256+b) = cacheEntry (key.drop (latest (TE_TOEPLITZ_IN_MAX key.length) p)) b := by
  induction fuel generalizing i cache with
  | zero => omega
  | succ fuel ih =>
    rw [cacheLoop]
    by_cases more : i < TE_TOEPLITZ_IN_MAX key.length
    · have next : unsigned (i+1) = i+1 := mod_eq_of_lt (by omega)
      rw [if_pos more,next,List.tail_drop]
      refine ih more (by omega) fun p inside b byte => ?_
      rw [fillEntries_slot byte,latest_next (Nat.le_of_lt_succ inside)]
      by_cases here : p%2^24 = i%2^24
      · rw [if_pos here,if_pos here]
      · grind
    · obtain rfl : i = TE_TOEPLITZ_IN_MAX key.length := by omega
      rw [if_neg more]
      exact ⟨cache,rfl,filled⟩
/-- A counter of four bytes never passes so many positions. -/
theorem cacheLoop_endless (long : 2^32 ≤ TE_TOEPLITZ_IN_MAX key_size) (inside : i < 2^32) (key : List UInt8) :
    cacheLoop key_size fuel i key cache = none := by
  induction fuel generalizing i key cache with
  | zero => rfl
  | succ fuel ih =>
    rw [cacheLoop,if_pos (lt_of_lt_of_le inside long)]
    exact ih (mod_lt _ (by decide)) _
theorem cache_built (long : 5 ≤ key.length) (small : TE_TOEPLITZ_IN_MAX key.length < 2^32) :
    ∃ c, te_toeplitz_cache_init_size key = some c ∧ c.max_in_size = TE_TOEPLITZ_IN_MAX key.length ∧
      ∀ p < TE_TOEPLITZ_IN_MAX key.length, ∀ b < 256,
        c.cache (p%2^24*256+b) = cacheEntry (key.drop (latest (TE_TOEPLITZ_IN_MAX key.length) p)) b := by
  obtain ⟨table,built,filled⟩ := @cacheLoop_spec key 0 (key.length+1) (fun _ => 0) small (Nat.zero_le _)
    (lt_succ_of_le (Nat.sub_le _ 4)) (fun p inside => absurd inside (Nat.not_lt_zero p))
  have enough : ¬key.length < TE_TOEPLITZ_MIN_KEY_SIZE := Nat.not_lt_of_le long
  refine ⟨⟨table,_⟩,?_,rfl,filled⟩
  rw [te_toeplitz_cache_init_size,if_neg enough]
  exact congrArg (Option.map _) built

end

section
variable {key input : List UInt8} {pos p : Nat} {c : ToeplitzHashCache} {cache : Nat → BitVec 32} {hash : BitVec 32}

/-- The words of the table for an input, one for each byte. -/
def entryAt (cache : Nat → BitVec 32) (input : List UInt8) (pos k : Nat) : BitVec 32 :=
  cache (unsigned ((pos+k)*256+((input[k]?).getD 0).toNat))

theorem hashLoop_sum : hashLoop cache input pos hash = hash ^^^ xorSum (entryAt cache input pos) input.length := by
  induction input generalizing pos hash with
  | nil => exact BitVec.xor_zero.symm
  | cons byte input ih =>
    have later : entryAt cache input (unsigned (pos+1)) = fun k => entryAt cache (byte :: input) pos (k+1) := by grind [unsigned,entryAt]
    rw [hashLoop,ih,later,length_cons,xorSum_first,BitVec.xor_assoc]
    rfl

theorem hash_data_sum (c : ToeplitzHashCache) (input : List UInt8) (pos : Nat) :
    te_toeplitz_hash_data c input pos = xorSum (entryAt c.cache input pos) input.length := by
  rw [te_toeplitz_hash_data,hashLoop_sum]
  exact BitVec.zero_xor
/-- The hash of a text is made of those of its parts, each with its own position. -/
theorem hash_data_append (c : ToeplitzHashCache) (input rest : List UInt8) (pos : Nat) : te_toeplitz_hash_data c (input ++ rest) pos =
    te_toeplitz_hash_data c input pos ^^^ te_toeplitz_hash_data c rest (pos+input.length) := by
  rw [hash_data_sum,hash_data_sum,hash_data_sum,length_append,xorSum_add]
  refine congrArg₂ (· ^^^ ·) (xorSum_congr fun k inside => ?_) (xorSum_congr fun k _ => ?_)
  · rw [entryAt,entryAt,getElem?_append_left inside]
  · rw [entryAt,entryAt,List.getElem?_append_right (Nat.le_add_right ..),Nat.add_sub_cancel_left,Nat.add_assoc]
/-- Source and destination can change places. -/
theorem hash_sym_swap (c : ToeplitzHashCache) (addr_size : Nat) (src_addr : Nat → UInt8) (src_port : UInt16) (dst_addr : Nat → UInt8) (dst_port : UInt16) :
    te_toeplitz_hash_sym_or_xor c addr_size src_addr src_port dst_addr dst_port =
      te_toeplitz_hash_sym_or_xor c addr_size dst_addr dst_port src_addr src_port := by
  have ors : (fun i => src_addr i ||| dst_addr i) = fun i => dst_addr i ||| src_addr i := funext fun _ => UInt8.or_comm ..
  have xors : (fun i => src_addr i ^^^ dst_addr i) = fun i => dst_addr i ^^^ src_addr i := funext fun _ => UInt8.xor_comm ..
  rw [te_toeplitz_hash_sym_or_xor,te_toeplitz_hash_sym_or_xor,ors,xors,UInt16.or_comm,UInt16.xor_comm]

/-- The sum of the stretches of the key for the bits of an input that begins at a position. -/
def toeplitz (key input : List UInt8) (pos : Nat) : BitVec 32 :=
  xorSum (fun i => if bitAt input i then stretch (bitAt key) (8*pos+i) 32 else 0) (8*input.length)
/-- The part of a byte. -/
def toeplitzByte (key : List UInt8) (p byte : Nat) : BitVec 32 :=
  xorSum (fun j => if byte.testBit (7-j) then stretch (bitAt key) (8*p+j) 32 else 0) 8

theorem toeplitz_bytes (key input : List UInt8) (pos : Nat) : toeplitz key input pos =
    xorSum (fun k => toeplitzByte key (pos+k) ((input[k]?).getD 0).toNat) input.length := by
  rw [toeplitz,xorSum_mul]
  refine xorSum_congr fun k _ => xorSum_congr fun j inside => ?_
  have byte : (8*k+j)/8 = k := by omega
  have bit : (8*k+j)%8 = j := by omega
  have place : 8*pos+(8*k+j) = 8*(pos+k)+j := by omega
  rw [bitAt,byte,bit,place]
theorem toeplitz_linear {x y : List UInt8} (same : x.length = y.length) (pos : Nat) :
    toeplitz key (List.zipWith (· ^^^ ·) x y) pos = toeplitz key x pos ^^^ toeplitz key y pos := by
  have length : (List.zipWith (· ^^^ ·) x y).length = x.length := by rw [List.length_zipWith,same,Nat.min_self]
  rw [toeplitz,toeplitz,toeplitz,length,← same,← xorSum_xor]
  refine xorSum_congr fun i inside => ?_
  have bit : bitAt (List.zipWith (· ^^^ ·) x y) i = (bitAt x i ^^ bitAt y i) := by grind [UInt8.toNat_xor,bitAt]
  rw [bit]
  cases bitAt x i <;> cases bitAt y i
  · exact BitVec.xor_zero.symm
  · exact BitVec.zero_xor.symm
  · exact BitVec.xor_zero.symm
  · exact BitVec.xor_self.symm
/-- What the table holds for an input byte. -/
theorem entryAt_byte (built : ∀ p < TE_TOEPLITZ_IN_MAX key.length, ∀ b < 256,
      c.cache (p%2^24*256+b) = cacheEntry (key.drop (latest (TE_TOEPLITZ_IN_MAX key.length) p)) b)
    (inside : pos+p < TE_TOEPLITZ_IN_MAX key.length) : entryAt c.cache input pos p =
      toeplitzByte key (latest (TE_TOEPLITZ_IN_MAX key.length) (pos+p)) ((input[p]?).getD 0).toNat := by
  have later := latest_inside inside
  have byte := ((input[p]?).getD 0).toNat_lt
  have size : TE_TOEPLITZ_IN_MAX key.length = key.length-4 := rfl
  rw [entryAt,unsigned_slot _ byte,built _ inside _ byte,cacheEntry_drop (by omega)]
  rfl

end

section
variable {key : List UInt8}

/-- The key repeats: the stretches at positions with the same place in the table are the same. -/
def Repeats (key : List UInt8) : Prop :=
  ∀ p, p+2^24 < TE_TOEPLITZ_IN_MAX key.length → ∀ k < 39, bitAt key (8*p+k) = bitAt key (8*(p+2^24)+k)
/-- What the hash over a table is: the sum of stretches of the key, and so it can be
    computed in pieces, is linear, and does not tell source from destination. -/
structure Hashes (key : List UInt8) (c : ToeplitzHashCache) : Prop where
  bitwise : ∀ input, input.length ≤ TE_TOEPLITZ_IN_MAX key.length → te_toeplitz_hash_data c input 0 = toeplitz key input 0
  pieces : ∀ input rest, te_toeplitz_hash_data c (input ++ rest) 0 = te_toeplitz_hash_data c input 0 ^^^ te_toeplitz_hash_data c rest input.length
  linear : ∀ x y, x.length = y.length → x.length ≤ TE_TOEPLITZ_IN_MAX key.length →
    te_toeplitz_hash_data c (List.zipWith (· ^^^ ·) x y) 0 = te_toeplitz_hash_data c x 0 ^^^ te_toeplitz_hash_data c y 0
  symmetric : ∀ addr_size src_addr src_port dst_addr dst_port, te_toeplitz_hash_sym_or_xor c addr_size src_addr src_port dst_addr dst_port =
    te_toeplitz_hash_sym_or_xor c addr_size dst_addr dst_port src_addr src_port

/-- Of a byte with one bit, the stretch of the key for that bit is left. -/
theorem toeplitzByte_bit {p j : Nat} (inside : j < 8) : toeplitzByte key p (2^(7-j)) = stretch (bitAt key) (8*p+j) 32 := by
  rw [toeplitzByte,xorSum_single inside]
  · rw [if_pos (Nat.testBit_two_pow_self)]
  · grind
theorem toeplitzByte_congr {p q : Nat} (same : ∀ k < 39, bitAt key (8*p+k) = bitAt key (8*q+k)) (byte : Nat) :
    toeplitzByte key p byte = toeplitzByte key q byte := by
  refine xorSum_congr fun j inside => ?_
  have stretches : stretch (bitAt key) (8*p+j) 32 = stretch (bitAt key) (8*q+j) 32 := by
    refine BitVec.eq_of_getLsbD_eq fun k less => ?_
    have := same (j+32-1-k) (by omega)
    rw [getLsbD_stretch,getLsbD_stretch]
    have left : 8*p+j+32-1-k = 8*p+(j+32-1-k) := by omega
    have right : 8*q+j+32-1-k = 8*q+(j+32-1-k) := by omega
    rw [left,right,this]
  rw [stretches]
theorem Repeats.latest (repeats : Repeats key) {p : Nat} (inside : p < TE_TOEPLITZ_IN_MAX key.length) :
    ∀ k < 39, bitAt key (8*latest (TE_TOEPLITZ_IN_MAX key.length) p+k) = bitAt key (8*p+k) := by
  have step : ∀ m, p+2^24*m < TE_TOEPLITZ_IN_MAX key.length → ∀ k < 39, bitAt key (8*(p+2^24*m)+k) = bitAt key (8*p+k) := by
    intro m
    induction m with
    | zero => exact fun _ _ _ => rfl
    | succ m ih =>
      intro inside k less
      have next : p+2^24*(m+1) = p+2^24*m+2^24 := by omega
      rw [next] at inside ⊢
      rw [← repeats _ inside k less,ih (by omega) k less]
  exact step _ (latest_inside inside)

theorem toeplitz_append (key input rest : List UInt8) : toeplitz key (input ++ rest) 0 = toeplitz key input 0 ^^^ toeplitz key rest input.length := by
  rw [toeplitz_bytes,toeplitz_bytes,toeplitz_bytes,length_append,xorSum_add]
  refine congrArg₂ (· ^^^ ·) (xorSum_congr fun k inside => ?_) (xorSum_congr fun k _ => ?_)
  · rw [getElem?_append_left inside]
  · grind
theorem Hashes.byte {c : ToeplitzHashCache} (hashes : Hashes key c) {p : Nat} (inside : p < TE_TOEPLITZ_IN_MAX key.length) (b : UInt8) :
    te_toeplitz_hash_data c [b] p = toeplitzByte key p b.toNat := by
  have zeros : (replicate p (0 : UInt8)).length = p := length_replicate
  have whole := hashes.bitwise (replicate p 0 ++ [b]) (by rw [length_append,zeros]; exact inside)
  have front := hashes.bitwise (replicate p 0) (by rw [zeros]; exact le_of_lt inside)
  rw [hashes.pieces,front,toeplitz_append,zeros] at whole
  rw [(BitVec.xor_right_inj _).mp whole,toeplitz_bytes]
  exact BitVec.zero_xor
theorem hash_byte {c : ToeplitzHashCache} {p : Nat} (built : ∀ p < TE_TOEPLITZ_IN_MAX key.length, ∀ b < 256,
      c.cache (p%2^24*256+b) = cacheEntry (key.drop (latest (TE_TOEPLITZ_IN_MAX key.length) p)) b)
    (inside : p < TE_TOEPLITZ_IN_MAX key.length) (b : UInt8) :
    te_toeplitz_hash_data c [b] p = toeplitzByte key (latest (TE_TOEPLITZ_IN_MAX key.length) p) b.toNat := by
  rw [hash_data_sum]
  show 0 ^^^ entryAt c.cache [b] p 0 = _
  rw [entryAt_byte built inside]
  exact BitVec.zero_xor
/-- The hash over the table is the Toeplitz hash exactly when the table has a place of its own
    for every position, or the positions that share one are alike, and its building ends. -/
theorem cached_toeplitz_iff (long : 5 ≤ key.length) : (∃ c, te_toeplitz_cache_init_size key = some c ∧ Hashes key c) ↔
    TE_TOEPLITZ_IN_MAX key.length < 2^32 ∧ Repeats key := by
  have enough : ¬key.length < TE_TOEPLITZ_MIN_KEY_SIZE := Nat.not_lt_of_le long
  constructor
  · rintro ⟨c,init,hashes⟩
    have small : TE_TOEPLITZ_IN_MAX key.length < 2^32 := by
      by_contra endless
      rw [te_toeplitz_cache_init_size,if_neg enough,cacheLoop_endless (Nat.le_of_not_lt endless) (by decide)] at init
      cases init
    obtain ⟨c',init',-,built⟩ := cache_built long small
    obtain rfl := some.inj (init.symm.trans init')
    have alike : ∀ p < TE_TOEPLITZ_IN_MAX key.length, ∀ k < 39,
        bitAt key (8*p+k) = bitAt key (8*latest (TE_TOEPLITZ_IN_MAX key.length) p+k) := by
      intro p inside k less
      have byte : ∀ j < 8, stretch (bitAt key) (8*p+j) 32 = stretch (bitAt key) (8*latest (TE_TOEPLITZ_IN_MAX key.length) p+j) 32 := by
        intro j inside'
        have value : (UInt8.ofNat (2^(7-j))).toNat = 2^(7-j) := by
          rw [UInt8.toNat_ofNat']
          exact mod_eq_of_lt (Nat.pow_lt_pow_right (by decide) (by omega))
        have same := (hashes.byte inside (UInt8.ofNat (2^(7-j)))).symm.trans (hash_byte built inside _)
        rwa [value,toeplitzByte_bit inside',toeplitzByte_bit inside'] at same
      -- a bit behind the eighth belongs to the stretch that the last bit of the byte stands for
      have bit := congrArg (·.getLsbD (31-(k-min k 7))) (byte (min k 7) (by omega))
      have place : ∀ i, i+min k 7+32-1-(31-(k-min k 7)) = i+k := fun i => by omega
      simpa only [getLsbD_stretch,place,decide_eq_true (show 31-(k-min k 7) < 32 by omega),Bool.true_and] using bit
    refine ⟨small,fun p inside k less => ?_⟩
    have shared : latest (TE_TOEPLITZ_IN_MAX key.length) p = latest (TE_TOEPLITZ_IN_MAX key.length) (p+2^24) := by
      rw [latest,latest]
      omega
    rw [alike p (by omega) k less,alike (p+2^24) inside k less,shared]
  · rintro ⟨small,repeats⟩
    obtain ⟨c,init,-,built⟩ := cache_built long small
    have bitwise : ∀ input, input.length ≤ TE_TOEPLITZ_IN_MAX key.length → te_toeplitz_hash_data c input 0 = toeplitz key input 0 := by
      intro input fits
      rw [hash_data_sum,toeplitz_bytes]
      refine xorSum_congr fun k inside => ?_
      have place : 0+k < TE_TOEPLITZ_IN_MAX key.length := by omega
      rw [entryAt_byte built place]
      exact toeplitzByte_congr (repeats.latest place) _
    refine ⟨c,init,bitwise,fun input rest => ?_,fun x y same fits => ?_,hash_sym_swap c⟩
    · rw [hash_data_append,Nat.zero_add]
    · grind [toeplitz_linear]

theorem cached_toeplitz_five : (∃ c, te_toeplitz_cache_init_size [1,2,3,4,5] = some c ∧ Hashes [1,2,3,4,5] c) ↔
    TE_TOEPLITZ_IN_MAX 5 < 2^32 ∧ Repeats [1,2,3,4,5] := cached_toeplitz_iff (le_refl 5)

/-- A key with a bit at its begin, in which the first position and the last one share a place. -/
def longKey : List UInt8 := [0x80] ++ replicate (2^24+4) 0

theorem longKey_length : longKey.length = 2^24+5 := by
  rw [longKey,length_append,length_replicate]
  rfl
theorem longKey_bit (i : Nat) : bitAt longKey i = decide (i = 0) := by
  have first : ∀ i < 8, bitAt [0x80] i = decide (i = 0) := by decide
  rw [longKey]
  by_cases inside : i < 8
  · rw [bitAt_append_left inside,first i inside]
  · have place : i = 8*[(0x80 : UInt8)].length+(i-8) := by
      rw [length_singleton]
      omega
    rw [decide_eq_false (by omega),place,bitAt_append_right,bitAt,List.getElem?_replicate]
    split_ifs <;> exact Nat.zero_testBit _
/-- The stretch of the first bit of such a key is lost. -/
theorem cached_toeplitz_long : ∃ c, te_toeplitz_cache_init_size longKey = some c ∧
    te_toeplitz_hash_data c [0x80] 0 ≠ toeplitz longKey [0x80] 0 := by
  have size : TE_TOEPLITZ_IN_MAX longKey.length = 2^24+1 := by rw [longKey_length]; rfl
  obtain ⟨c,init,-,built⟩ := @cache_built longKey (by rw [longKey_length]; omega) (by rw [size]; omega)
  refine ⟨c,init,fun same => ?_⟩
  have last : latest (2^24+1) 0 = 2^24 := by
    rw [latest]
    omega
  have bit : (0x80 : UInt8).toNat = 2^(7-0) := rfl
  have spec : toeplitz longKey [0x80] 0 = toeplitzByte longKey 0 (0x80 : UInt8).toNat := by
    rw [toeplitz_bytes]
    exact BitVec.zero_xor
  rw [hash_byte built (by rw [size]; omega),spec,size,last,bit,toeplitzByte_bit (by decide),toeplitzByte_bit (by decide)] at same
  have lost := congrArg (·.getLsbD 31) same
  simp only [getLsbD_stretch,longKey_bit] at lost
  revert lost
  decide

end

end TestEnvironment.Tools

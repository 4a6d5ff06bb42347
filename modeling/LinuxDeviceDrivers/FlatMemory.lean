import Mathlib.Data.List.Basic
import Mathlib.Data.Nat.Digits.Lemmas
import Mathlib.Data.Nat.Notation

/-!
# Flat memories

A memory that gives every address a value, with loads and stores of whole
ranges, and `memcpy` between two buffers of fixed sizes. While a buffer shows a
memory, a copy into it is a store and a copy out of it is a load. Ranges
compose, so a transfer in pieces is the transfer of the whole. A range may also
end at a terminator.

The last two parts read and write numbers in a memory of bytes: little-endian
ones, then numbers in either byte order.
-/
namespace LinuxDeviceDrivers.FlatMemory

variable {α : Type*}

/-- The `n` values from address `a` on. -/
def load (m : ℕ → α) (a n : ℕ) : List α := (List.range n).map fun i => m (a + i)

def store (m : ℕ → α) (a : ℕ) (xs : List α) : ℕ → α :=
  fun i => if a ≤ i then (xs[i - a]?).getD (m i) else m i

@[simp] theorem load_length (m : ℕ → α) (a n : ℕ) : (load m a n).length = n := by
  simp [load]

theorem load_getElem? (m : ℕ → α) (a n i : ℕ) :
    (load m a n)[i]? = if i < n then some (m (a + i)) else none := by
  by_cases h : i < n
  · simp [load, h]
  · simp [load, h]

theorem load_append (m : ℕ → α) (a n k : ℕ) :
    load m a (n + k) = load m a n ++ load m (a + n) k := by
  simp only [load, List.range_add, List.map_append, List.map_map]
  congr 1
  exact List.map_congr_left fun i _ => by simp [Nat.add_assoc]

theorem load_take {m : ℕ → α} {a n k : ℕ} (h : k ≤ n) : (load m a n).take k = load m a k := by
  obtain ⟨r, rfl⟩ := Nat.exists_eq_add_of_le h
  rw [load_append]
  exact List.take_left' (load_length m a k)

theorem load_drop {m : ℕ → α} {a n k : ℕ} (h : k ≤ n) :
    (load m a n).drop k = load m (a + k) (n - k) := by
  obtain ⟨r, rfl⟩ := Nat.exists_eq_add_of_le h
  rw [load_append, Nat.add_sub_cancel_left]
  exact List.drop_left' (load_length m a k)

theorem load_congr {m m' : ℕ → α} {a n : ℕ} (h : ∀ i, a ≤ i → i < a + n → m i = m' i) :
    load m a n = load m' a n :=
  List.map_congr_left fun i hi => h _ (Nat.le_add_right a i)
    (Nat.add_lt_add_left (List.mem_range.mp hi) a)

theorem store_of_lt {m : ℕ → α} {a i : ℕ} (xs : List α) (h : i < a) : store m a xs i = m i :=
  if_neg (Nat.not_le.mpr h)

theorem store_of_le {m : ℕ → α} {a i : ℕ} {xs : List α} (h : a + xs.length ≤ i) :
    store m a xs i = m i := by
  rw [store, if_pos (by omega), List.getElem?_eq_none (by omega)]
  rfl

theorem store_nil (m : ℕ → α) (a : ℕ) : store m a [] = m := by
  funext i
  simp [store]

theorem store_append (m : ℕ → α) (a : ℕ) (xs ys : List α) :
    store (store m a xs) (a + xs.length) ys = store m a (xs ++ ys) := by
  funext i
  simp only [store]
  by_cases hlo : a ≤ i
  · by_cases hhi : a + xs.length ≤ i
    · rw [if_pos hhi, if_pos hlo, if_pos hlo, List.getElem?_append_right (by omega),
        List.getElem?_eq_none (l := xs) (by omega), Option.getD_none, Nat.sub_add_eq]
    · rw [if_neg hhi, if_pos hlo, if_pos hlo, List.getElem?_append_left (by omega)]
  · rw [if_neg (by omega), if_neg hlo, if_neg hlo]

theorem load_store_self (m : ℕ → α) (a : ℕ) (xs : List α) :
    load (store m a xs) a xs.length = xs := by
  refine List.ext_getElem? fun i => ?_
  rw [load_getElem?]
  by_cases h : i < xs.length
  · rw [if_pos h, store, if_pos (Nat.le_add_right a i), Nat.add_sub_cancel_left,
      List.getElem?_eq_getElem h, Option.getD_some]
  · rw [if_neg h, List.getElem?_eq_none (Nat.le_of_not_lt h)]

theorem store_load (m : ℕ → α) (a n : ℕ) : store m a (load m a n) = m := by
  funext i
  unfold store
  split_ifs with hlo
  · rw [load_getElem?]
    split_ifs with hhi
    · rw [Nat.add_sub_cancel' hlo, Option.getD_some]
    · rfl
  · rfl

/-- A store that fits a range is its beginning; a longer one is not. -/
theorem prefix_load_store_iff {m : ℕ → α} {a n : ℕ} {xs : List α} :
    xs <+: load (store m a xs) a n ↔ xs.length ≤ n := by
  constructor
  · intro h
    have hle := h.length_le
    rwa [load_length] at hle
  · intro h
    obtain ⟨rest, rfl⟩ := Nat.exists_eq_add_of_le h
    rw [load_append, load_store_self]
    exact List.prefix_append _ _

section Terminated
variable [DecidableEq α] {m m' : ℕ → α} {stop : α} {a n : ℕ} {xs : List α}

/-- The values from address `a` on, at most `n` of them, that come before the terminator. -/
def loadUntil (stop : α) (m : ℕ → α) (a : ℕ) : ℕ → List α
  | 0 => []
  | n + 1 => if m a = stop then [] else m a :: loadUntil stop m (a + 1) n

theorem loadUntil_congr (h : ∀ i, a ≤ i → m i = m' i) :
    loadUntil stop m a n = loadUntil stop m' a n := by
  induction n generalizing a with
  | zero => rfl
  | succ n ih =>
      rw [loadUntil, loadUntil, h a (Nat.le_refl a)]
      rw [ih fun i hi => h i (Nat.le_of_succ_le hi)]

theorem loadUntil_store (hstop : stop ∉ xs) (hn : xs.length < n) :
    loadUntil stop (store m a (xs ++ [stop])) a n = xs := by
  induction xs generalizing m a n with
  | nil =>
      obtain ⟨n, rfl⟩ := Nat.exists_eq_add_of_lt hn
      rw [loadUntil]
      simp [store]
  | cons x xs ih =>
      obtain ⟨hx, hxs⟩ := List.ne_and_not_mem_of_not_mem_cons hstop
      cases n with
      | zero => exact absurd hn (Nat.not_lt_zero _)
      | succ n =>
          have hhead : store m a (x :: xs ++ [stop]) a = x := by simp [store]
          have hsplit : store m a (x :: xs ++ [stop]) =
              store (store m a [x]) (a + 1) (xs ++ [stop]) :=
            (store_append m a [x] (xs ++ [stop])).symm
          rw [loadUntil, hhead, if_neg hx.symm, hsplit]
          exact congrArg (x :: ·) (ih hxs (Nat.lt_of_succ_lt_succ hn))

end Terminated

/-- A buffer of `n` values. -/
@[ext] structure Area (α : Type*) (n : ℕ) where
  vals : List α
  length_eq : vals.length = n
deriving DecidableEq

/-- `memcpy(dst + i, src + j, len)`; no value when it leaves one of the buffers. -/
def memcpy {n k : ℕ} (dst : Area α n) (i : ℕ) (src : Area α k) (j len : ℕ) :
    Option (Area α n) :=
  if h : i + len ≤ n ∧ j + len ≤ k then
    some ⟨dst.vals.take i ++ (src.vals.drop j).take len ++ dst.vals.drop (i + len), by
      simp only [List.length_append, List.length_take, List.length_drop, dst.length_eq,
        src.length_eq]
      omega⟩
  else none

theorem memcpy_isSome {n k i j len : ℕ} {dst : Area α n} {src : Area α k} :
    (memcpy dst i src j len).isSome ↔ i + len ≤ n ∧ j + len ≤ k := by
  unfold memcpy
  split_ifs with h
  · exact iff_of_true rfl h
  · exact iff_of_false nofun h

/-- A buffer that shows a range of a memory. -/
def area (m : ℕ → α) (a n : ℕ) : Area α n := ⟨load m a n, load_length m a n⟩

@[simp] theorem area_vals (m : ℕ → α) (a n : ℕ) : (area m a n).vals = load m a n := rfl

/-- Every buffer shows some memory. -/
theorem area_getD {n : ℕ} (x : Area α n) (d : α) : area (fun i => x.vals.getD i d) 0 n = x := by
  ext1
  apply List.ext_getElem?
  intro i
  rw [area_vals, load_getElem?, Nat.zero_add]
  split_ifs with hi
  · rw [List.getD_eq_getElem?_getD, List.getElem?_eq_getElem (x.length_eq.symm ▸ hi),
      Option.getD_some]
  · rw [List.getElem?_eq_none (by have := x.length_eq; omega)]

theorem load_part {m : ℕ → α} {size a n : ℕ} (h : a + n ≤ size) :
    ((load m 0 size).drop a).take n = load m a n := by
  rw [load_drop (by omega), load_take (by omega), Nat.zero_add]

/-- A store changes its own range and nothing else. -/
theorem load_store {m : ℕ → α} {size a : ℕ} {xs : List α} (h : a + xs.length ≤ size) :
    load (store m a xs) 0 size =
      load m 0 a ++ xs ++ load m (a + xs.length) (size - (a + xs.length)) := by
  obtain ⟨rest, rfl⟩ := Nat.exists_eq_add_of_le h
  rw [load_append, load_append, Nat.zero_add, Nat.zero_add, load_store_self,
    Nat.add_sub_cancel_left]
  congr 1
  · congr 1
    exact load_congr fun i _ hi => store_of_lt xs (by omega)
  · exact load_congr fun i hi _ => store_of_le hi

/-- A copy into a buffer that shows a memory is a store. -/
theorem memcpy_store {m : ℕ → α} {size a k : ℕ} {xs : Area α k} (h : a + k ≤ size) :
    memcpy (area m 0 size) a xs 0 k = some (area (store m a xs.vals) 0 size) := by
  have hk := xs.length_eq
  rw [memcpy, dif_pos ⟨h, by omega⟩, Option.some.injEq]
  ext1
  simp only [area_vals]
  rw [load_store (by omega), load_take (by omega), load_drop h, hk, Nat.zero_add, List.drop_zero,
    List.take_of_length_le (by omega)]

/-- A copy out of a buffer that shows a memory is a load. -/
theorem memcpy_load {m : ℕ → α} {size a k : ℕ} {xs : Area α k} (h : a + k ≤ size) :
    memcpy xs 0 (area m 0 size) a k = some (area m a k) := by
  have hk := xs.length_eq
  rw [memcpy, dif_pos ⟨by omega, h⟩, Option.some.injEq]
  ext1
  simp only [area_vals]
  rw [load_drop (by omega), load_take (by omega), Nat.zero_add, Nat.zero_add, List.take_zero,
    List.drop_eq_nil_of_le (by omega), List.nil_append, List.append_nil]

section Numbers
variable {m : ℕ → ℕ} {a n k v : ℕ}

/-- The little-endian number of `n` bytes at address `a`. -/
def loadLE (m : ℕ → ℕ) (a n : ℕ) : ℕ := Nat.ofDigits 256 (load m a n)

def storeLE (m : ℕ → ℕ) (a n v : ℕ) : ℕ → ℕ := store m a (Nat.digitsAppend 256 n v)

theorem loadLE_add (m : ℕ → ℕ) (a n k : ℕ) :
    loadLE m a (n + k) = loadLE m a n + 256 ^ n * loadLE m (a + n) k := by
  rw [loadLE, load_append, Nat.ofDigits_append, load_length]
  rfl

theorem storeLE_length (hv : v < 256 ^ n) : (Nat.digitsAppend 256 n v).length = n :=
  Nat.length_digitsAppend (by decide) n hv

theorem loadLE_storeLE_self (hv : v < 256 ^ n) : loadLE (storeLE m a n v) a n = v := by
  have hload := load_store_self m a (Nat.digitsAppend 256 n v)
  rw [storeLE_length hv] at hload
  rw [loadLE, storeLE, hload]
  exact (Nat.setInvOn_digitsAppend_ofDigits (by decide) n).2 hv

/-- A memory of bytes. -/
def Bytes (m : ℕ → ℕ) : Prop := ∀ i, m i < 256

theorem Bytes.storeLE (hm : Bytes m) : Bytes (storeLE m a n v) := by
  intro i
  rw [FlatMemory.storeLE, store]
  split_ifs
  · cases hi : (Nat.digitsAppend 256 n v)[i - a]? with
    | none => exact hm i
    | some x => exact Nat.lt_of_mem_digitsAppend (by decide) n x (List.mem_of_getElem? hi)
  · exact hm i

theorem Bytes.loadLE_lt (hm : Bytes m) (a n : ℕ) : loadLE m a n < 256 ^ n := by
  have hlt := Nat.ofDigits_lt_base_pow_length (b := 256) (l := load m a n) (by decide)
    (fun x hx => by
      obtain ⟨i, -, rfl⟩ := List.mem_map.mp hx
      exact hm (a + i))
  rwa [load_length] at hlt

theorem loadLE_zero (a n : ℕ) : loadLE (fun _ => 0) a n = 0 := by
  induction n with
  | zero => rfl
  | succ n ih =>
      rw [loadLE_add, ih]
      rfl

end Numbers

inductive ByteOrder where
  | little | big
deriving DecidableEq, Repr

section ByteOrder
variable {o : ByteOrder} {m : ℕ → UInt8} {bs cs : List UInt8} {a n v : ℕ}

/-- The `n` bytes of a number as they stand in memory. -/
def ByteOrder.encode (o : ByteOrder) (n v : ℕ) : List UInt8 :=
  match o with
  | .little => (Nat.digitsAppend 256 n v).map UInt8.ofNat
  | .big => ((Nat.digitsAppend 256 n v).map UInt8.ofNat).reverse

/-- The number that these bytes stand for. -/
def ByteOrder.decode (o : ByteOrder) (bs : List UInt8) : ℕ :=
  match o with
  | .little => Nat.ofDigits 256 (bs.map UInt8.toNat)
  | .big => Nat.ofDigits 256 (bs.reverse.map UInt8.toNat)

theorem bytes_valid (bs : List UInt8) : ∀ x ∈ bs.map UInt8.toNat, x < 256 := by
  intro x hx
  obtain ⟨b, -, rfl⟩ := List.mem_map.mp hx
  exact b.toNat_lt

theorem encode_length (o : ByteOrder) (hv : v < 256 ^ n) : (o.encode n v).length = n := by
  cases o with
  | little => rw [ByteOrder.encode, List.length_map, storeLE_length hv]
  | big => rw [ByteOrder.encode, List.length_reverse, List.length_map, storeLE_length hv]

theorem map_toNat_ofNat {ds : List ℕ} (h : ∀ x ∈ ds, x < 256) :
    (ds.map UInt8.ofNat).map UInt8.toNat = ds := by
  rw [List.map_map]
  calc ds.map (UInt8.toNat ∘ UInt8.ofNat) = ds.map id :=
        List.map_congr_left fun x hx => UInt8.toNat_ofNat_of_lt (h x hx)
    _ = ds := List.map_id ds

theorem decode_encode (o : ByteOrder) (hv : v < 256 ^ n) : o.decode (o.encode n v) = v := by
  have hbytes := map_toNat_ofNat fun x => Nat.lt_of_mem_digitsAppend (by decide : 1 < 256) n x (n := v)
  have hvalue := (Nat.setInvOn_digitsAppend_ofDigits (show 1 < 256 by decide) n).2 hv
  cases o with
  | little => rw [ByteOrder.decode, ByteOrder.encode, hbytes, hvalue]
  | big => rw [ByteOrder.decode, ByteOrder.encode, List.reverse_reverse, hbytes, hvalue]

theorem decode_lt (o : ByteOrder) (bs : List UInt8) : o.decode bs < 256 ^ bs.length := by
  cases o with
  | little =>
      have hlt := Nat.ofDigits_lt_base_pow_length (by decide : 1 < 256) (bytes_valid bs)
      rwa [List.length_map] at hlt
  | big =>
      have hlt := Nat.ofDigits_lt_base_pow_length (by decide : 1 < 256) (bytes_valid bs.reverse)
      rwa [List.length_map, List.length_reverse] at hlt

/-- Two byte strings of one length that stand for the same number are the same. -/
theorem decode_inj (hlen : bs.length = cs.length) (h : o.decode bs = o.decode cs) : bs = cs := by
  have hmap : Function.Injective UInt8.toNat := fun x y => UInt8.toNat_inj.mp
  cases o with
  | little =>
      refine List.map_injective_iff.mpr hmap ?_
      exact Nat.ofDigits_inj_of_len_eq (by decide) (by simpa using hlen) (bytes_valid bs)
        (bytes_valid cs) h
  | big =>
      refine List.reverse_injective (List.map_injective_iff.mpr hmap ?_)
      exact Nat.ofDigits_inj_of_len_eq (by decide) (by simpa using hlen) (bytes_valid bs.reverse)
        (bytes_valid cs.reverse) h

theorem encode_eq_iff (hv : v < 256 ^ bs.length) :
    o.encode bs.length v = bs ↔ o.decode bs = v := by
  constructor
  · intro h
    calc o.decode bs = o.decode (o.encode bs.length v) := by rw [h]
      _ = v := decode_encode o hv
  · intro h
    refine decode_inj (o := o) (encode_length o hv) ?_
    rw [decode_encode o hv, h]

theorem decode_little_append (bs cs : List UInt8) :
    ByteOrder.little.decode (bs ++ cs) =
      ByteOrder.little.decode bs + 256 ^ bs.length * ByteOrder.little.decode cs := by
  simp only [ByteOrder.decode, List.map_append, Nat.ofDigits_append, List.length_map]

theorem decode_big_append (bs cs : List UInt8) :
    ByteOrder.big.decode (bs ++ cs) =
      ByteOrder.big.decode cs + 256 ^ cs.length * ByteOrder.big.decode bs := by
  simp only [ByteOrder.decode, List.reverse_append, List.map_append, Nat.ofDigits_append,
    List.length_map, List.length_reverse]

/-- The number of `n` bytes at address `a`. -/
def loadNum (o : ByteOrder) (m : ℕ → UInt8) (a n : ℕ) : ℕ := o.decode (load m a n)

def storeNum (o : ByteOrder) (m : ℕ → UInt8) (a n v : ℕ) : ℕ → UInt8 := store m a (o.encode n v)

theorem loadNum_lt (o : ByteOrder) (m : ℕ → UInt8) (a n : ℕ) : loadNum o m a n < 256 ^ n := by
  have hlt := decode_lt o (load m a n)
  rwa [load_length] at hlt

theorem loadNum_storeNum_self (hv : v < 256 ^ n) : loadNum o (storeNum o m a n v) a n = v := by
  have h := load_store_self m a (o.encode n v)
  rw [encode_length o hv] at h
  rw [loadNum, storeNum, h, decode_encode o hv]

theorem storeNum_frame {i : ℕ} (hv : v < 256 ^ n) (h : i < a ∨ a + n ≤ i) :
    storeNum o m a n v i = m i := by
  rcases h with h | h
  · exact store_of_lt _ h
  · exact store_of_le (by rw [encode_length o hv]; exact h)

/-- Storing a number over itself changes nothing. -/
theorem storeNum_loadNum (o : ByteOrder) (m : ℕ → UInt8) (a n : ℕ) :
    storeNum o m a n (loadNum o m a n) = m := by
  have hlt := decode_lt o (load m a n)
  have hbytes := (encode_eq_iff hlt).mpr rfl
  rw [load_length] at hbytes
  rw [storeNum, loadNum, hbytes, store_load]

/-- The two halves, in the order of their addresses, of a number that fits one of them. -/
def ByteOrder.halves (o : ByteOrder) (v : ℕ) : ℕ × ℕ :=
  match o with
  | .little => (v, 0)
  | .big => (0, v)

theorem halves_lt (o : ByteOrder) (hv : v < 256 ^ n) :
    (o.halves v).1 < 256 ^ n ∧ (o.halves v).2 < 256 ^ n := by
  have hpos : 0 < 256 ^ n := Nat.pos_of_ne_zero (by positivity)
  cases o with
  | little => exact ⟨hv, hpos⟩
  | big => exact ⟨hpos, hv⟩

theorem encode_halves (o : ByteOrder) (hv : v < 256 ^ n) :
    o.encode (n + n) v = o.encode n (o.halves v).1 ++ o.encode n (o.halves v).2 := by
  obtain ⟨h1, h2⟩ := halves_lt o hv
  have hpow : 256 ^ n ≤ 256 ^ (n + n) := Nat.pow_le_pow_right (by decide) (Nat.le_add_right n n)
  have hbig : v < 256 ^ (n + n) := Nat.lt_of_lt_of_le hv hpow
  refine decode_inj (o := o) ?_ ?_
  · rw [encode_length o hbig, List.length_append, encode_length o h1, encode_length o h2]
  · rw [decode_encode o hbig]
    cases o with
    | little =>
        rw [decode_little_append, decode_encode _ h1, decode_encode _ h2]
        exact (Nat.add_zero v).symm
    | big =>
        rw [decode_big_append, decode_encode _ h1, decode_encode _ h2]
        exact (Nat.add_zero v).symm

theorem storeNum_halves (hv : v < 256 ^ n) :
    storeNum o m a (n + n) v =
      storeNum o (storeNum o m a n (o.halves v).1) (a + n) n (o.halves v).2 := by
  have hlen := encode_length o (halves_lt o hv).1
  have happend := store_append m a (o.encode n (o.halves v).1) (o.encode n (o.halves v).2)
  rw [hlen, ← encode_halves o hv] at happend
  exact happend.symm

/-- Where the low half of a number of `n + n` bytes lies. -/
def ByteOrder.lowHalf (o : ByteOrder) (a n : ℕ) : ℕ :=
  match o with
  | .little => a
  | .big => a + n

theorem loadNum_mod (o : ByteOrder) (m : ℕ → UInt8) (a n : ℕ) :
    loadNum o m a (n + n) % 256 ^ n = loadNum o m (o.lowHalf a n) n := by
  cases o with
  | little =>
      have hlt := loadNum_lt .little m a n
      rw [loadNum, load_append, decode_little_append, load_length, Nat.add_mul_mod_self_left]
      exact Nat.mod_eq_of_lt hlt
  | big =>
      have hlt := loadNum_lt .big m (a + n) n
      rw [loadNum, load_append, decode_big_append, load_length, Nat.add_mul_mod_self_left]
      exact Nat.mod_eq_of_lt hlt

end ByteOrder
end LinuxDeviceDrivers.FlatMemory

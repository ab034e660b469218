import Mathlib.Data.Nat.Digits.Lemmas

open List

/-- The words of a large number, the lowest one first. The highest one is not zero. -/
structure mpz_cell where
  m_digits : List Nat
  digit_lt : ∀ d ∈ m_digits, d < 4294967296
  top : ∃ d ds, m_digits.reverse = d :: ds ∧ d ≠ 0

/-- A number that is not negative. -/
inductive mpz where
  | small (m_val : Nat) (h : m_val < 2147483648)
  | large (c : mpz_cell)

namespace mpz

def value : mpz → Nat
  | small m_val _ => m_val
  | large c => Nat.ofDigits 4294967296 c.m_digits

/-- What a stream writes, as digits: `v` in hexadecimal, with zeros in front up to `width`. -/
def put_hex (width v : Nat) : List Nat :=
  let ds := (Nat.digits 16 v).reverse
  replicate (max 1 width - ds.length) 0 ++ ds

/-- The width of a stream is reset by every output. -/
def put_words : Nat → List Nat → List Nat
  | _, [] => []
  | width, d :: ds => put_hex width d ++ put_words 0 ds

/-- `bitSize` is an unsigned of 32 bits. -/
def display_hex (num_bits : Nat) : mpz → List Nat
  | small m_val _ => put_hex (num_bits / 4) m_val
  | large c =>
    let bitSize := c.m_digits.length * 32 % 4294967296
    match c.m_digits.reverse with
    | [] => []
    | d :: ds =>
      (if num_bits ≥ bitSize then replicate ((num_bits - bitSize) / 4) 0 ++ put_hex 8 d
      else put_hex (num_bits % 32 / 4) d) ++ put_words 8 ds

def display_binary_data (val numBits : Nat) : List Nat :=
  replicate (numBits - 64) 0 ++ (range (min numBits 64)).reverse.map fun shift => val >>> shift % 2

def display_bin (num_bits : Nat) : mpz → List Nat
  | small m_val _ => display_binary_data m_val num_bits
  | large c =>
    let bitSize := c.m_digits.length * 32 % 4294967296
    match c.m_digits.reverse with
    | [] => []
    | d :: ds =>
      (if num_bits > bitSize then replicate (num_bits - bitSize) 0 ++ display_binary_data d 32
      else display_binary_data d (if num_bits % 32 ≠ 0 then num_bits % 32 else 32)) ++
        ds.flatMap (display_binary_data · 32)

/-- There are `n` digits to the base `b`, and their value is `v`. -/
structure Prints (b n v : Nat) (out : List Nat) : Prop where
  length : out.length = n
  lt : ∀ d ∈ out, d < b
  value : Nat.ofDigits b out.reverse = v

variable {b n m k u v d width : Nat} {l l' ds : List Nat}

theorem Prints.append (h : Prints b n u l) (h' : Prints b m v l') : Prints b (n + m) (u * b ^ m + v) (l ++ l') where
  length := by rw [length_append, h.length, h'.length]
  lt := forall_mem_append.mpr ⟨h.lt, h'.lt⟩
  value := by
    rw [reverse_append, Nat.ofDigits_append, length_reverse, h'.length, h.value, h'.value]
    ring

theorem Prints.zeros (h : Prints b n v l) (hb : 0 < b) (m : Nat) : Prints b (m + n) v (replicate m 0 ++ l) := by
  have hzeros : Prints b m 0 (replicate m 0) := by
    refine ⟨length_replicate, fun d hd => eq_of_mem_replicate hd ▸ hb, ?_⟩
    rw [reverse_replicate]
    exact Nat.ofDigits_replicate_zero ..
  simpa using hzeros.append h

/-- Words are printed one after the other, each with all its digits. -/
theorem Prints.words {f : Nat → List Nat} (hk : b ^ k = 4294967296) (h : ∀ d ∈ ds, Prints b k d (f d)) :
    Prints b (k * ds.length) (Nat.ofDigits 4294967296 ds.reverse) (ds.flatMap f) := by
  induction ds with
  | nil => exact ⟨rfl, nofun, rfl⟩
  | cons d ds ih =>
    obtain ⟨hd, hds⟩ := forall_mem_cons.mp h
    have hall := hd.append (ih hds)
    rw [pow_mul, hk] at hall
    rw [flatMap_cons, reverse_cons, Nat.ofDigits_append, Nat.ofDigits_singleton, length_reverse, length_cons]
    convert hall using 1 <;> ring

theorem put_hex_prints (hwidth : 0 < width) (hv : v < 16 ^ width) : Prints 16 width v (put_hex width v) := by
  have hlen : (Nat.digits 16 v).length ≤ width := (Nat.digits_length_le_iff (by decide) v).mpr hv
  have hds : Prints 16 (Nat.digits 16 v).length v (Nat.digits 16 v).reverse :=
    ⟨length_reverse, fun d hd => Nat.digits_lt_base (by decide) (mem_reverse.mp hd),
      by rw [reverse_reverse, Nat.ofDigits_digits]⟩
  convert hds.zeros (by decide) (max 1 width - (Nat.digits 16 v).length) using 1
  · omega
  · rw [put_hex, length_reverse]

theorem bits_prints (v n : Nat) : Prints 2 n (v % 2 ^ n) ((range n).reverse.map fun shift => v >>> shift % 2) := by
  induction n with
  | zero => exact ⟨rfl, nofun, (Nat.mod_one v).symm⟩
  | succ n ih =>
    have hbit : Prints 2 1 (v >>> n % 2) [v >>> n % 2] :=
      ⟨rfl, forall_mem_singleton.mpr (Nat.mod_lt _ Nat.two_pos), Nat.ofDigits_singleton ..⟩
    rw [range_succ, reverse_append, map_append, Nat.mod_pow_succ, ← Nat.shiftRight_eq_div_pow]
    convert hbit.append ih using 1
    · ring
    · ring
    · rfl

theorem display_binary_data_prints (hv : v < 2 ^ n) (hv' : v < 18446744073709551616) :
    Prints 2 n v (display_binary_data v n) := by
  have hmod : v % 2 ^ min n 64 = v := by
    refine Nat.mod_eq_of_lt ?_
    rcases min_choice n 64 with h | h <;> rwa [h]
  convert (hmod ▸ bits_prints v (min n 64)).zeros (by decide) (n - 64) using 1
  · omega
  · rfl

/-- The words after the first one are written without padding. -/
theorem put_words_zero_length (h : ∀ d ∈ ds, d < 4294967296) : (put_words 0 ds).length ≤ 8 * ds.length ∧
    ((put_words 0 ds).length = 8 * ds.length → ∀ d ∈ ds, 268435456 ≤ d) := by
  induction ds with
  | nil => exact ⟨le_rfl, nofun⟩
  | cons d ds ih =>
    obtain ⟨hd, hds⟩ := forall_mem_cons.mp h
    obtain ⟨hle, hall⟩ := ih hds
    have h8 := (Nat.digits_length_le_iff (b := 16) (k := 8) (by decide) d).mpr hd
    have h7 := Nat.digits_length_le_iff (b := 16) (k := 7) (by decide) d
    have hlen : (put_hex 0 d).length = max 1 (Nat.digits 16 d).length := by
      simp only [put_hex, length_append, length_replicate, length_reverse]
      omega
    simp only [put_words, length_append, length_cons, hlen]
    refine ⟨by omega, fun heq => forall_mem_cons.mpr ⟨?_, hall (by omega)⟩⟩
    by_contra hlt
    have := h7.mpr (by omega)
    omega

theorem put_words_eq_flatMap (h : ∀ d ∈ ds, d < 4294967296) (h' : ∀ d ∈ ds, 268435456 ≤ d) :
    put_words 0 ds = ds.flatMap (put_hex 8) := by
  induction ds with
  | nil => rfl
  | cons d ds ih =>
    obtain ⟨hd, hds⟩ := forall_mem_cons.mp h
    obtain ⟨hd', hds'⟩ := forall_mem_cons.mp h'
    have h7 := Nat.digits_length_le_iff (b := 16) (k := 7) (by decide) d
    have hlen : 8 ≤ (Nat.digits 16 d).length := by
      by_contra hlt
      have := h7.mp (by omega)
      omega
    rw [put_words, flatMap_cons, ih hds hds', put_hex, put_hex, length_reverse, Nat.sub_eq_zero_of_le (by omega),
      Nat.sub_eq_zero_of_le (by omega)]

/-- The number of bits is that of the lower words and of the highest one. -/
theorem top_lt (h : d ≠ 0) (hv : u + 4294967296 ^ k * d < 2 ^ n) : 32 * k < n ∧ d < 2 ^ (n - 32 * k) := by
  have hpow : (4294967296 : Nat) ^ k = 2 ^ (32 * k) := (pow_mul 2 32 k).symm
  rw [hpow] at hv
  have hlt : 32 * k < n := by
    refine (Nat.pow_lt_pow_iff_right Nat.one_lt_two).mp (lt_of_le_of_lt ?_ hv)
    exact (Nat.le_mul_of_pos_right _ (Nat.pos_of_ne_zero h)).trans (Nat.le_add_left ..)
  refine ⟨hlt, Nat.lt_of_mul_lt_mul_left (a := 2 ^ (32 * k)) ?_⟩
  rw [← pow_add, Nat.add_sub_cancel' hlt.le]
  exact (Nat.le_add_left ..).trans_lt hv

theorem length_value {c : mpz_cell} (hrev : c.m_digits.reverse = d :: ds) : c.m_digits.length = ds.length + 1 ∧
    (large c).value = Nat.ofDigits 4294967296 ds.reverse + 4294967296 ^ ds.length * d := by
  have hdigits : c.m_digits = ds.reverse ++ [d] := by rw [← reverse_cons, ← hrev, reverse_reverse]
  rw [value, hdigits, Nat.ofDigits_append, length_append, length_reverse, Nat.ofDigits_singleton]
  exact ⟨rfl, rfl⟩

theorem digit_lt {c : mpz_cell} (hrev : c.m_digits.reverse = l) : ∀ e ∈ l, e < 4294967296 :=
  fun e he => c.digit_lt e (mem_reverse.mp (hrev ▸ he))

section Large

variable {c : mpz_cell} {num_bits : Nat} (hrev : c.m_digits.reverse = d :: ds) (hlt : 32 * ds.length < num_bits)
  (hd : d < 2 ^ (num_bits - 32 * ds.length))
include hrev hlt hd

/-- With `2 ^ 27` words `bitSize` is zero, and the zeros in front are as many as the bits. -/
theorem display_bin_large (hbits : num_bits < 4294967296) :
    Prints 2 num_bits (large c).value ((large c).display_bin num_bits) ↔ c.m_digits.length < 134217728 := by
  obtain ⟨hlen, hvalue⟩ := length_value hrev
  obtain ⟨hd32, hds⟩ := forall_mem_cons.mp (digit_lt hrev)
  have hword {e : Nat} (he : e < 4294967296) := display_binary_data_prints (n := 32) he (he.trans (by decide))
  have hrest := Prints.words (b := 2) (k := 32) (by decide) fun e he => hword (hds e he)
  simp only [display_bin, hrev, hlen]
  constructor
  · intro hprints
    by_contra hsz
    have hsize : (ds.length + 1) * 32 % 4294967296 = 0 := by omega
    rw [hsize, if_pos (by omega)] at hprints
    have hlength := hprints.length
    rw [length_append, length_append, length_replicate, (hword hd32).length] at hlength
    omega
  · intro hsz
    rw [Nat.mod_eq_of_lt (by omega), hvalue]
    split
    next hgt =>
      convert ((hword hd32).zeros Nat.two_pos (num_bits - (ds.length + 1) * 32)).append hrest using 1
      · omega
      · rw [pow_mul]
        ring
    next hle =>
      have hfirst : (if num_bits % 32 ≠ 0 then num_bits % 32 else 32) = num_bits - 32 * ds.length := by split <;> omega
      rw [hfirst]
      convert (display_binary_data_prints hd (hd32.trans (by decide))).append hrest using 1
      · omega
      · rw [pow_mul]
        ring

/-- The words after the first two are printed without leading zeros. All hexadecimal digits are there exactly if each
of these words needs eight of them. -/
theorem display_hex_large (hsz : c.m_digits.length < 134217728) (hdvd : 4 ∣ num_bits) :
    Prints 16 (num_bits / 4) (large c).value ((large c).display_hex num_bits) ↔
      ∀ e ∈ c.m_digits.reverse.drop 2, 268435456 ≤ e := by
  obtain ⟨hlen, hvalue⟩ := length_value hrev
  obtain ⟨hd32, hds⟩ := forall_mem_cons.mp (digit_lt hrev)
  have htop : Prints 16 (num_bits / 4 - 8 * ds.length) d (if num_bits ≥ (ds.length + 1) * 32 then
      replicate ((num_bits - (ds.length + 1) * 32) / 4) 0 ++ put_hex 8 d else put_hex (num_bits % 32 / 4) d) := by
    split
    next =>
      convert (put_hex_prints (by decide : 0 < 8) hd32).zeros (by decide) _ using 1
      omega
    next =>
      have hwidth : num_bits / 4 - 8 * ds.length = num_bits % 32 / 4 := by omega
      have hpow : num_bits - 32 * ds.length = 4 * (num_bits % 32 / 4) := by omega
      rw [hpow, pow_mul] at hd
      rw [hwidth]
      exact put_hex_prints (by omega) hd
  simp only [display_hex, hrev, hlen, drop_succ_cons]
  rw [Nat.mod_eq_of_lt (by omega), hvalue]
  constructor
  · intro hprints
    have hlength := hprints.length
    rw [length_append, htop.length] at hlength
    cases ds with
    | nil => exact nofun
    | cons e es =>
      obtain ⟨he, hes⟩ := forall_mem_cons.mp hds
      refine (put_words_zero_length hes).2 ?_
      rw [put_words, length_append, (put_hex_prints (by decide) he).length, length_cons] at hlength
      rw [length_cons] at hlt
      omega
  · intro hall
    have hwords : put_words 8 ds = ds.flatMap (put_hex 8) := by
      cases ds with
      | nil => rfl
      | cons e es => rw [put_words, put_words_eq_flatMap (forall_mem_cons.mp hds).2 hall, flatMap_cons]
    have hrest := Prints.words (b := 16) (k := 8) (by decide) fun e he => put_hex_prints (by decide) (hds e he)
    rw [hwords]
    convert htop.append hrest using 1
    · omega
    · rw [pow_mul]
      ring

end Large

/-- There are fewer than `2 ^ 27` words, and those below the two highest ones have eight hexadecimal digits. -/
def Displayable (num_bits : Nat) : mpz → Prop
  | small _ _ => 0 < num_bits
  | large c => c.m_digits.length < 134217728 ∧ (4 ∣ num_bits → ∀ d ∈ c.m_digits.reverse.drop 2, 268435456 ≤ d)

/-- A number that fits the width is printed in binary, and in hexadecimal if four divides the width, with as many
digits as the width asks for and with the right value, exactly if it is `Displayable`: a small number needs a bit to
print, a large one fewer than `2 ^ 27` words and none after the highest two that needs padding in hexadecimal. -/
theorem display_exact {num_bits : Nat} (a : mpz) (hbits : num_bits < 4294967296) (ha : a.value < 2 ^ num_bits) :
    (Prints 2 num_bits a.value (a.display_bin num_bits) ∧
      (4 ∣ num_bits → Prints 16 (num_bits / 4) a.value (a.display_hex num_bits))) ↔ a.Displayable num_bits := by
  cases a with
  | small m_val h =>
    refine ⟨fun ⟨_, hhex⟩ => ?_, fun hpos => ⟨display_binary_data_prints ha (h.trans (by decide)), fun ⟨k, hk⟩ => ?_⟩⟩
    · -- at least one digit is printed
      by_contra hzero
      obtain rfl : num_bits = 0 := Nat.eq_zero_of_not_pos hzero
      have hlength := (hhex ⟨0, rfl⟩).length
      simp only [display_hex, put_hex, length_append, length_replicate, length_reverse] at hlength
      omega
    · subst hk
      rw [display_hex, Nat.mul_div_cancel_left k (by decide)]
      rw [pow_mul] at ha
      exact put_hex_prints (Nat.pos_of_mul_pos_left hpos) ha
  | large c =>
    obtain ⟨d, ds, hrev, hne⟩ := c.top
    obtain ⟨hlt, hd⟩ := top_lt hne ((length_value hrev).2 ▸ ha)
    rw [display_bin_large hrev hlt hd hbits]
    exact and_congr_right fun hsz => forall_congr' (display_hex_large hrev hlt hd hsz)

/-- Two words, `2 ^ 32 + 1`: the padding of the second word is there. -/
theorem display_exact_two_words :
    Prints 16 16 4294967297 (display_hex 64 (large ⟨[1, 1], by simp, 1, [1], rfl, by simp⟩)) :=
  ((display_exact (large ⟨[1, 1], by simp, 1, [1], rfl, by simp⟩) (by decide : 64 < 4294967296) (by decide)).mpr
    ⟨by decide, fun _ => nofun⟩).2 ⟨16, rfl⟩

/-- The zeros of the last word are lost. -/
theorem display_hex_short : value (large ⟨[0, 0, 1], by decide, 1, [0, 0], rfl, by decide⟩) = 2 ^ 64 ∧
    ¬ Prints 16 24 (2 ^ 64) (display_hex 96 (large ⟨[0, 0, 1], by decide, 1, [0, 0], rfl, by decide⟩)) := by
  refine ⟨by decide, fun h => ?_⟩
  have hlength := h.length
  simp [display_hex, put_words, put_hex] at hlength

end mpz

import Mathlib.Algebra.Order.Ring.Nat
/-!
# Wire — little-endian numbers, byte parsers and whole-input readers

A format is written by concatenating `leBytes` and byte strings, and read back by a `Parser`: a function on the bytes
still to be read that may fail with an error of the format's own.
-/
namespace Wire

open List

abbrev Bytes := List UInt8

/-! ## Numbers -/

def leBytes : Nat → Nat → Bytes
  | 0, _ => []
  | k + 1, n => UInt8.ofNat n :: leBytes k (n / 256)

/-- The number a byte string spells, least significant byte first. -/
def leVal : Bytes → Nat
  | [] => 0
  | b :: bs => b.toNat + 256 * leVal bs

@[simp] theorem length_leBytes : ∀ (k n : Nat), (leBytes k n).length = k
  | 0, _ => rfl
  | k + 1, n => by simp [leBytes, length_leBytes k]

/-- **Writing `k` bytes and reading them back is reduction modulo `256 ^ k`.** -/
theorem leVal_leBytes : ∀ (k n : Nat), leVal (leBytes k n) = n % 256 ^ k
  | 0, n => by simp [leBytes, leVal, Nat.mod_one]
  | k + 1, n => by
    have hb : (UInt8.ofNat n).toNat = n % 256 := by simp
    rw [leBytes, leVal, leVal_leBytes k, hb, Nat.pow_succ, Nat.mul_comm (256 ^ k) 256, Nat.mod_mul]

/-! ## Parsers -/

/-- A parser reads off the front of the remaining bytes, or fails. -/
abbrev Parser (ε α : Type) := StateT Bytes (Except ε) α

section
variable {ε α β : Type}

def need (k : Nat) (e : ε) : Parser ε Unit := fun s => if s.length < k then .error e else .ok ((), s)

def take (k : Nat) : Parser ε Bytes := fun s => .ok (s.take k, s.drop k)

def number (k : Nat) : Parser ε Nat := fun s => .ok (leVal (s.take k), s.drop k)

def byte : Parser ε UInt8 := fun s => .ok (s.headD 0, s.tail)

/-- `count` values read one after the other; the reader of each is told its index, counted from `i`. -/
def many (p : Nat → Parser ε α) : Nat → Nat → Parser ε (List α)
  | 0, _ => pure []
  | count + 1, i => do
    let a ← p i
    let as ← many p count (i + 1)
    return a :: as

def Parses (p : Parser ε α) (s : Bytes) (a : α) (t : Bytes) : Prop := p s = .ok (a, t)

theorem parses_pure (a : α) (s : Bytes) : Parses (pure a : Parser ε α) s a s := rfl

theorem Parses.bind {p : Parser ε α} {f : α → Parser ε β} {s t u : Bytes} {a : α} {b : β}
    (h : Parses p s a t) (h' : Parses (f a) t b u) : Parses (p >>= f) s b u := by
  unfold Parses at h h' ⊢
  show (p s >>= fun q => f q.1 q.2) = _
  rw [h]
  exact h'

theorem parses_need {k : Nat} {e : ε} {s : Bytes} (h : k ≤ s.length) : Parses (need k e) s () s := by
  unfold Parses need
  rw [if_neg (by omega)]

theorem parses_take (t s : Bytes) : Parses (take t.length : Parser ε Bytes) (t ++ s) t s := by
  simp [Parses, take]

theorem parses_number {k n : Nat} (h : n < 256 ^ k) (s : Bytes) :
    Parses (number k : Parser ε Nat) (leBytes k n ++ s) n s := by
  have ht : (leBytes k n ++ s).take k = leBytes k n := take_left' (length_leBytes k n)
  have hd : (leBytes k n ++ s).drop k = s := drop_left' (length_leBytes k n)
  unfold Parses number
  rw [ht, hd, leVal_leBytes, Nat.mod_eq_of_lt h]

theorem parses_byte (b : UInt8) (s : Bytes) : Parses (byte : Parser ε UInt8) (b :: s) b s := rfl

theorem parses_many {p : Nat → Parser ε α} {enc : α → Bytes} : ∀ (as : List α) (i : Nat) (s : Bytes),
    (∀ a ∈ as, ∀ j t, Parses (p j) (enc a ++ t) a t) → Parses (many p as.length i) ((as.map enc).flatten ++ s) as s
  | [], _, s, _ => parses_pure [] s
  | a :: as, i, s, h => by
    rw [map_cons, flatten_cons, append_assoc]
    apply Parses.bind (h a (by simp) i _)
    exact Parses.bind (parses_many as (i + 1) s (fun b hb => h b (by simp [hb]))) (parses_pure _ _)

end

/-! ## Reading a whole input -/

section
variable {β : Type}

variable (next : Bytes → Option (β × Bytes))

/-- A reader that takes at least one byte off its input for every record it returns. -/
def Consumes : Prop := ∀ s b t, next s = some (b, t) → t.length < s.length

def readUpTo (next : Bytes → Option (β × Bytes)) : Nat → Bytes → List β
  | 0, _ => []
  | k + 1, s => match next s with
    | none => []
    | some (b, t) => b :: readUpTo next k t

/-- Every record of the input: one more than its bytes is a bound on their number. -/
def readAll (s : Bytes) : List β := readUpTo next (s.length + 1) s

variable {next : Bytes → Option (β × Bytes)}

theorem readUpTo_of_le (hc : Consumes next) : ∀ (k m : Nat) (s : Bytes),
    s.length < k → s.length < m → readUpTo next k s = readUpTo next m s
  | 0, _, _, h, _ => absurd h (by omega)
  | _, 0, _, _, h => absurd h (by omega)
  | k + 1, m + 1, s, hk, hm => by
    unfold readUpTo
    cases hn : next s with
    | none => rfl
    | some p =>
      obtain ⟨b, t⟩ := p
      have ht := hc s b t hn
      simp only
      rw [readUpTo_of_le hc k m t (by omega) (by omega)]

theorem readAll_eq (hc : Consumes next) (s : Bytes) : readAll next s = match next s with
      | none => []
      | some (b, t) => b :: readAll next t := by
  unfold readAll
  rw [readUpTo]
  cases hn : next s with
  | none => rfl
  | some p =>
    obtain ⟨b, t⟩ := p
    have ht := hc s b t hn
    simp only
    rw [readUpTo_of_le hc s.length (t.length + 1) t ht (by omega)]

end

/-! ## Positional writes -/

/-- The contents of a file after `data` is written at `pos`: a gap before it reads as zeros. -/
def writeAt (file : Bytes) (pos : Nat) (data : Bytes) : Bytes :=
  file.take pos ++ List.replicate (pos - file.length) 0 ++ data ++ file.drop (pos + data.length)

def HoldsAt (file : Bytes) (pos : Nat) (data : Bytes) : Prop := (file.drop pos).take data.length = data

instance (file : Bytes) (pos : Nat) (data : Bytes) : Decidable (HoldsAt file pos data) :=
  inferInstanceAs (Decidable (_ = _))

theorem writeAt_length (file data : Bytes) : writeAt file file.length data = file ++ data := by
  simp [writeAt]

theorem writeAt_nil {file : Bytes} {pos : Nat} (h : pos ≤ file.length) : writeAt file pos [] = file := by
  simp [writeAt, Nat.sub_eq_zero_of_le h]

theorem take_of_holdsAt {file p data : Bytes} (hp : file.take p.length = p) (hd : HoldsAt file p.length data) :
    file.take (p ++ data).length = p ++ data := by
  rw [length_append, take_add, hp, hd]

end Wire

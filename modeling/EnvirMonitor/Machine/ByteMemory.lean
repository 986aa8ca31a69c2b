import EnvirMonitor.Machine.LittleEndian

/-! Memory by the byte, with the 16-bit words that lie in it. -/

namespace EnvirMonitor.Machine

def wordAt (ram : ℕ → U8) (p : ℕ) : U16 := ofBytes (ram p) (ram (p + 1))

def putWord (ram : ℕ → U8) (p : ℕ) (w : U16) : ℕ → U8 :=
  Function.update (Function.update ram p (lowByte w)) (p + 1) (highByte w)

theorem putWord_of_outside {p i : ℕ} (h : i < p ∨ p + 2 ≤ i) (ram : ℕ → U8) (w : U16) :
    putWord ram p w i = ram i := by
  rw [putWord, Function.update_of_ne (by omega), Function.update_of_ne (by omega)]

theorem wordAt_putWord (ram : ℕ → U8) (p : ℕ) (w : U16) : wordAt (putWord ram p w) p = w := by
  rw [wordAt, putWord, Function.update_of_ne (by omega), Function.update_self, Function.update_self,
    low_high_eq]

theorem wordAt_congr {ram ram' : ℕ → U8} {p : ℕ} (h : ∀ i, p ≤ i → i < p + 2 → ram' i = ram i) :
    wordAt ram' p = wordAt ram p := by
  rw [wordAt, wordAt, h p le_rfl (by omega), h (p + 1) (by omega) (by omega)]

def bytesAt (ram : ℕ → U8) (p : ℕ) : ℕ → List U8
  | 0 => []
  | n + 1 => ram p :: bytesAt ram (p + 1) n

theorem length_bytesAt (ram : ℕ → U8) (p n : ℕ) : (bytesAt ram p n).length = n := by
  induction n generalizing p with
  | zero => rfl
  | succ n ih => rw [bytesAt, List.length_cons, ih]

theorem getElem?_bytesAt {n i : ℕ} (h : i < n) (ram : ℕ → U8) (p : ℕ) :
    (bytesAt ram p n)[i]? = some (ram (p + i)) := by
  induction n generalizing p i with
  | zero => omega
  | succ n ih =>
    rw [bytesAt]
    cases i with
    | zero => rfl
    | succ i =>
      rw [List.getElem?_cons_succ, ih (by omega), Nat.add_assoc, Nat.add_comm 1 i]

theorem bytesAt_congr {ram ram' : ℕ → U8} {p n : ℕ}
    (h : ∀ i, p ≤ i → i < p + n → ram' i = ram i) : bytesAt ram' p n = bytesAt ram p n := by
  apply List.ext_getElem?
  intro i
  by_cases hi : i < n
  · rw [getElem?_bytesAt hi, getElem?_bytesAt hi, h (p + i) (by omega) (by omega)]
  · rw [List.getElem?_eq_none (by rw [length_bytesAt]; omega),
      List.getElem?_eq_none (by rw [length_bytesAt]; omega)]

theorem take_bytesAt (n k : ℕ) (ram : ℕ → U8) (p : ℕ) :
    (bytesAt ram p n).take k = bytesAt ram p (min k n) := by
  apply List.ext_getElem?
  intro i
  by_cases hi : i < min k n
  · rw [List.getElem?_take_of_lt (by omega), getElem?_bytesAt (by omega), getElem?_bytesAt hi]
  · rw [List.getElem?_eq_none (by rw [List.length_take, length_bytesAt]; omega),
      List.getElem?_eq_none (by rw [length_bytesAt]; omega)]

theorem bytesAt_update {n i : ℕ} (h : i < n) (ram : ℕ → U8) (p : ℕ) (b : U8) :
    bytesAt (Function.update ram (p + i) b) p n = (bytesAt ram p n).set i b := by
  apply List.ext_getElem?
  intro j
  rw [List.getElem?_set, length_bytesAt, if_pos h]
  by_cases hj : j < n
  · rw [getElem?_bytesAt hj, getElem?_bytesAt hj]
    by_cases hij : i = j
    · rw [if_pos hij, hij, Function.update_self]
    · rw [if_neg hij, Function.update_of_ne (by omega)]
  · rw [if_neg (by omega), List.getElem?_eq_none (by rw [length_bytesAt]; omega),
      List.getElem?_eq_none (by rw [length_bytesAt]; omega)]

end EnvirMonitor.Machine

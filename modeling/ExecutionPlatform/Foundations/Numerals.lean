import Mathlib

/-! The number readers of the C library. They skip white space, take a sign, and stop at the first
character that is no digit, without a word about it. -/
namespace ExecutionPlatform.Foundations

def digitValue (c : Char) : Option Nat :=
  if c.isDigit then some (c.toNat - 48)
  else if c.isLower then some (c.toNat - 87)
  else if c.isUpper then some (c.toNat - 55)
  else none

/-- Read digits on to a number, up to the first character that is not one. -/
def scanDigits (base : Nat) : Nat → List Char → Nat
  | n, [] => n
  | n, c :: cs =>
    match (digitValue c).filter (· < base) with
    | some d => scanDigits base (base * n + d) cs
    | none => n

/-- Space, and the controls from tab to carriage return. -/
def isSpace (c : Char) : Bool := c.toNat = 32 || 9 ≤ c.toNat && c.toNat ≤ 13

/-- The sign, true for a minus. -/
def splitSign : List Char → Bool × List Char
  | [] => (false, [])
  | c :: cs => if c = '-' then (true, cs) else if c = '+' then (false, cs) else (false, c :: cs)

/-- Base 0 is told by the prefix: 0x for 16, another 0 for 8, and 10 without. A 0x is only a prefix
if a digit follows. -/
def splitBase (base : Nat) (cs : List Char) : Nat × List Char :=
  if base ≠ 0 then (base, cs)
  else match cs with
    | [] => (10, cs)
    | c :: rest =>
      if c ≠ '0' then (10, cs)
      else match rest with
        | x :: d :: digits =>
          if (x = 'x' ∨ x = 'X') ∧ ((digitValue d).filter (· < 16)).isSome then (16, d :: digits)
          else (8, cs)
        | _ => (8, cs)

def readNumeral (base : Nat) (s : String) : Bool × Nat :=
  let (negative, cs) := splitSign (s.toList.dropWhile isSpace)
  let (base, cs) := splitBase base cs
  (negative, scanDigits base 0 cs)

/-- What does not fit is the largest number; a minus is taken modulo 2^64. -/
def strtoull (s : String) (base : Nat) : BitVec 64 :=
  let (negative, n) := readNumeral base s
  if 2 ^ 64 ≤ n then BitVec.allOnes 64 else if negative then -BitVec.ofNat 64 n else BitVec.ofNat 64 n

/-- As strtol reads a long, cut down to an int. -/
def atoi (s : String) : Int :=
  let (negative, n) := readNumeral 10 s
  let long : Int := if negative then max (-n) (-2 ^ 63) else min n (2 ^ 63 - 1)
  long.bmod (2 ^ 32)

section Digits
variable {base : Nat}

theorem digitValue_digitChar {d : Nat} (hd : d < 16) : digitValue d.digitChar = some d := by
  have hall : ∀ d < 16, digitValue (Nat.digitChar d) = some d := by decide
  exact hall d hd

theorem digitValue_filter (hbase : base ≤ 16) {d : Nat} (hd : d < base) :
    (digitValue d.digitChar).filter (· < base) = some d := by
  rw [digitValue_digitChar (hd.trans_le hbase)]
  simp [Option.filter, hd]

theorem scanDigits_snoc {cs : List Char} (hcs : ∀ c ∈ cs, ((digitValue c).filter (· < base)).isSome)
    (n : Nat) (c : Char) : scanDigits base n (cs ++ [c]) = scanDigits base (scanDigits base n cs) [c] := by
  induction cs generalizing n with
  | nil => rfl
  | cons c' cs ih =>
    obtain ⟨d, hd⟩ := Option.isSome_iff_exists.mp (hcs c' List.mem_cons_self)
    have hcons : ∀ cs, scanDigits base n (c' :: cs) = scanDigits base (base * n + d) cs := by
      intro cs
      rw [scanDigits, hd]
    rw [List.cons_append, hcons, hcons]
    exact ih (fun c hc => hcs c (List.mem_cons_of_mem _ hc)) (base * n + d)

/-- Digits that a number is written with are digits of the base. -/
theorem isSome_of_mem_toDigits (h1 : 1 < base) (hbase : base ≤ 16) {n : Nat} {c : Char}
    (hc : c ∈ Nat.toDigits base n) : ((digitValue c).filter (· < base)).isSome := by
  induction n using Nat.strongRecOn with
  | ind n ih =>
    rw [Nat.toDigits_eq_if h1] at hc
    split_ifs at hc with hlt
    · obtain rfl := List.mem_singleton.mp hc
      rw [digitValue_filter hbase hlt]
      rfl
    · rcases List.mem_append.mp hc with hc | hc
      · exact ih (n / base) (Nat.div_lt_self (by lia) h1) hc
      · obtain rfl := List.mem_singleton.mp hc
        rw [digitValue_filter hbase (Nat.mod_lt n (by lia))]
        rfl

/-- Reading a number back gives the number. -/
theorem scanDigits_toDigits (h1 : 1 < base) (hbase : base ≤ 16) (n : Nat) :
    scanDigits base 0 (Nat.toDigits base n) = n := by
  induction n using Nat.strongRecOn with
  | ind n ih =>
    rw [Nat.toDigits_eq_if h1]
    split_ifs with hlt
    · rw [scanDigits, digitValue_filter hbase hlt]
      simp [scanDigits]
    · have hdiv : scanDigits base 0 (Nat.toDigits base (n / base)) = n / base :=
        ih (n / base) (Nat.div_lt_self (by lia) h1)
      rw [scanDigits_snoc (fun c hc => isSome_of_mem_toDigits h1 hbase hc), hdiv, scanDigits,
        digitValue_filter hbase (Nat.mod_lt n (by lia))]
      exact Nat.div_add_mod n base

/-- A number is written without white space or a sign, and 0 is the only one that begins with 0. -/
theorem toDigits_head (h1 : 1 < base) (hbase : base ≤ 10) (n : Nat) :
    ∃ c cs, Nat.toDigits base n = c :: cs ∧ c.isDigit = true ∧ (n ≠ 0 → c ≠ '0') := by
  induction n using Nat.strongRecOn with
  | ind n ih =>
    rw [Nat.toDigits_eq_if h1]
    split_ifs with hlt
    · refine ⟨_, [], rfl, ?_, ?_⟩
      · rw [Nat.isDigit_digitChar]
        exact decide_eq_true (hlt.trans_le hbase)
      · rw [ne_eq, ne_eq, Nat.digitChar_eq_zero]
        exact id
    · obtain ⟨c, cs, hcs, hdigit, hzero⟩ := ih (n / base) (Nat.div_lt_self (by lia) h1)
      rw [hcs]
      refine ⟨c, cs ++ _, rfl, hdigit, fun _ => hzero ?_⟩
      exact (Nat.div_pos (Nat.le_of_not_lt hlt) (by lia)).ne'

theorem not_isSpace_of_isDigit {c : Char} (hc : c.isDigit = true) :
    isSpace c = false ∧ c ≠ '-' ∧ c ≠ '+' := by
  refine ⟨?_, ?_, ?_⟩
  · have h48 : 48 ≤ c.toNat := by
      simp only [Char.isDigit, Bool.and_eq_true, decide_eq_true_eq] at hc
      exact UInt32.le_iff_toNat_le.mp hc.1
    have h32 : c.toNat ≠ 32 := by lia
    have h13 : ¬ c.toNat ≤ 13 := by lia
    simp [isSpace, h32, h13]
  · rintro rfl
    exact absurd hc (by decide)
  · rintro rfl
    exact absurd hc (by decide)

theorem readNumeral_digits {c : Char} {cs : List Char} (hc : c.isDigit = true) {s : String}
    (hs : s.toList = c :: cs) (base : Nat) :
    readNumeral base s = (false, scanDigits (splitBase base (c :: cs)).1 0 (splitBase base (c :: cs)).2) := by
  obtain ⟨hspace, hminus, hplus⟩ := not_isSpace_of_isDigit hc
  rw [readNumeral, hs, List.dropWhile_cons_of_neg (by rw [hspace]; exact Bool.false_ne_true)]
  rw [splitSign, if_neg hminus, if_neg hplus]

end Digits

theorem splitBase_ten (cs : List Char) : splitBase 10 cs = (10, cs) := rfl

/-- Decimals are read back in base 10, and in base 0 as well, since only 0 itself begins with 0. -/
theorem readNumeral_toString {base : Nat} (hbase : base = 10 ∨ base = 0) (n : Nat) :
    readNumeral base (toString n) = (false, n) := by
  obtain ⟨c, cs, hcs, hdigit, hzero⟩ := toDigits_head (by decide : 1 < 10) le_rfl n
  have hs : (toString n).toList = c :: cs := by
    rw [Nat.toString_eq_repr, Nat.toList_repr, hcs]
  have hscan : scanDigits 10 0 (c :: cs) = n := by
    rw [← hcs]
    exact scanDigits_toDigits (by decide) (by decide) n
  rw [readNumeral_digits hdigit hs]
  rcases hbase with rfl | rfl
  · rw [splitBase_ten, hscan]
  · by_cases hn : n = 0
    · obtain ⟨rfl, rfl⟩ : c = '0' ∧ cs = [] := by
        rw [hn, Nat.toDigits_zero] at hcs
        exact ⟨(List.cons.inj hcs).1.symm, (List.cons.inj hcs).2.symm⟩
      rw [hn]
      rfl
    · have hten : splitBase 0 (c :: cs) = (10, c :: cs) := if_pos (hzero hn)
      rw [hten, hscan]

/-- Hexadecimals with their prefix are read back in base 0. -/
theorem readNumeral_hex (n : Nat) :
    readNumeral 0 ("0x" ++ String.ofList (Nat.toDigits 16 n)) = (false, n) := by
  obtain ⟨d, ds, hds⟩ := List.exists_cons_of_ne_nil (Nat.toDigits_ne_nil (n := n) (b := 16))
  have hs : ("0x" ++ String.ofList (Nat.toDigits 16 n)).toList = '0' :: 'x' :: d :: ds := by
    rw [String.toList_append, hds]
    exact congrArg ('0' :: 'x' :: ·) String.toList_ofList
  have hd : ((digitValue d).filter (· < 16)).isSome :=
    isSome_of_mem_toDigits (by decide) le_rfl (hds ▸ List.mem_cons_self)
  have hsixteen : splitBase 0 ('0' :: 'x' :: d :: ds) = (16, d :: ds) := by
    have hprefix : ('x' = 'x' ∨ 'x' = 'X') ∧ ((digitValue d).filter (· < 16)).isSome := ⟨.inl rfl, hd⟩
    exact if_pos hprefix
  rw [readNumeral_digits (by decide) hs, hsixteen, ← hds]
  exact congrArg (Prod.mk false) (scanDigits_toDigits (by decide) le_rfl n)

theorem strtoull_eq {base n : Nat} {s : String} (hn : n < 2 ^ 64) (h : readNumeral base s = (false, n)) :
    strtoull s base = BitVec.ofNat 64 n := by
  rw [strtoull, h]
  exact if_neg (Nat.not_le.mpr hn)

theorem strtoull_toString {base : Nat} (hbase : base = 10 ∨ base = 0) (w : BitVec 64) :
    strtoull (toString w.toNat) base = w := by
  rw [strtoull_eq w.isLt (readNumeral_toString hbase w.toNat), BitVec.ofNat_toNat, BitVec.setWidth_eq]

theorem strtoull_hex (w : BitVec 64) :
    strtoull ("0x" ++ String.ofList (Nat.toDigits 16 w.toNat)) 0 = w := by
  rw [strtoull_eq w.isLt (readNumeral_hex w.toNat), BitVec.ofNat_toNat, BitVec.setWidth_eq]

theorem readNumeral_neg (n : Nat) : readNumeral 10 ("-" ++ toString n) = (true, n) := by
  have hpos := readNumeral_toString (.inl rfl) n
  obtain ⟨c, cs, hcs, hdigit, -⟩ := toDigits_head (by decide : 1 < 10) le_rfl n
  have hs : (toString n).toList = c :: cs := by
    rw [Nat.toString_eq_repr, Nat.toList_repr, hcs]
  have hs' : ("-" ++ toString n).toList = '-' :: c :: cs := by
    rw [String.toList_append, hs]
    rfl
  rw [readNumeral_digits hdigit hs] at hpos
  rw [readNumeral, hs']
  exact congrArg (Prod.mk true) (congrArg Prod.snd hpos)

theorem atoi_eq {s : String} {negative : Bool} {n : Nat} (h : readNumeral 10 s = (negative, n)) :
    atoi s = (if negative then max (-n) (-2 ^ 63) else min n (2 ^ 63 - 1) : Int).bmod (2 ^ 32) := by
  rw [atoi, h]

theorem bmod_int {i : Int} (hlo : -2 ^ 31 ≤ i) (hhi : i < 2 ^ 31) : i.bmod (2 ^ 32) = i := by
  apply Int.bmod_eq_of_le
  · omega
  · omega

/-- Integers that an int can hold are read back. -/
theorem atoi_toString {i : Int} (hlo : -2 ^ 31 ≤ i) (hhi : i < 2 ^ 31) : atoi (toString i) = i := by
  cases i with
  | ofNat n =>
    have hread : readNumeral 10 (toString (Int.ofNat n)) = (false, n) := readNumeral_toString (.inl rfl) n
    have hlong : min (n : Int) (2 ^ 63 - 1) = Int.ofNat n := by
      rw [Int.ofNat_eq_natCast] at hhi ⊢
      omega
    rw [atoi_eq hread, if_neg Bool.false_ne_true, hlong, bmod_int hlo hhi]
  | negSucc n =>
    have hread : readNumeral 10 (toString (Int.negSucc n)) = (true, n + 1) := readNumeral_neg (n + 1)
    have hlong : max (-((n + 1 : Nat) : Int)) (-2 ^ 63) = Int.negSucc n := by
      omega
    rw [atoi_eq hread, if_pos rfl, hlong, bmod_int hlo hhi]

end ExecutionPlatform.Foundations

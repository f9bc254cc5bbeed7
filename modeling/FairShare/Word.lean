/-!
# 64-bit words

Counters are kept in 64-bit words. An addition that would leave the range either stops at the largest
word (`satAdd`) or comes round past zero (`wrapAdd`, the addition of `UInt64` itself). Times are kept
as natural numbers of nanoseconds, with `clampWord` and `wrapWord` at the places where a word is what
the scheduler keeps.
-/

namespace FairShare

/-- The largest value of a 64-bit word. -/
def maxWord : Nat := 0xFFFFFFFFFFFFFFFF

/-- The word nearest to a natural number. -/
def clampWord (n : Nat) : Nat := min n maxWord

/-- A natural number reduced to a word. -/
def wrapWord (n : Nat) : Nat := n % (maxWord + 1)

theorem clampWord_le (n : Nat) : clampWord n ≤ maxWord := Nat.min_le_right _ _

theorem clampWord_of_le {n : Nat} (h : n ≤ maxWord) : clampWord n = n := Nat.min_eq_left h

theorem clampWord_mono {m n : Nat} (h : m ≤ n) : clampWord m ≤ clampWord n := by
  unfold clampWord; omega

theorem clampWord_clampWord_add (m n : Nat) : clampWord (clampWord m + n) = clampWord (m + n) := by
  unfold clampWord; omega

theorem wrapWord_le (n : Nat) : wrapWord n ≤ maxWord := by
  unfold wrapWord maxWord; omega

theorem wrapWord_of_le {n : Nat} (h : n ≤ maxWord) : wrapWord n = n := by
  unfold maxWord at h; unfold wrapWord maxWord; omega

theorem wrapWord_wrapWord_add (m n : Nat) : wrapWord (wrapWord m + n) = wrapWord (m + n) :=
  Nat.mod_add_mod ..

/-- Addition that stops at the largest word. -/
def satAdd (a b : UInt64) : UInt64 :=
  if a.toNat + b.toNat ≤ maxWord then a + b else .ofNat maxWord

/-- Addition that comes round past zero. -/
def wrapAdd (a b : UInt64) : UInt64 := a + b

theorem toNat_satAdd (a b : UInt64) : (satAdd a b).toNat = clampWord (a.toNat + b.toNat) := by
  unfold satAdd clampWord maxWord
  split
  · rw [UInt64.toNat_add]; omega
  · rw [UInt64.toNat_ofNat']; omega

theorem toNat_wrapAdd (a b : UInt64) : (wrapAdd a b).toNat = wrapWord (a.toNat + b.toNat) :=
  UInt64.toNat_add a b

/-- The word nearest to a natural number, as a word. -/
def toWord (n : Nat) : UInt64 := .ofNat (clampWord n)

theorem toNat_toWord (n : Nat) : (toWord n).toNat = clampWord n := by
  have := clampWord_le n
  unfold maxWord at this
  rw [toWord, UInt64.toNat_ofNat']; omega

end FairShare

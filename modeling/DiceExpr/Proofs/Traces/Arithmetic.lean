import DiceExpr.Roll
import Mathlib.Data.Nat.Digits.Defs
import Mathlib.Tactic.Ring

namespace DiceExpr.Arithmetic

inductive Level where
  | factor
  | product
  | sum

/-- The numbers that texts of arithmetic stand for. Products bind tighter than sums, both go from
left to right, quotients have no fraction, and a product that is marked as dropped counts for
nothing. -/
inductive Denotes : Level → Text → Int → Prop
  | number (n : Int) : Denotes .factor (Text.ofInt n) n
  | group {w : Text} {n : Int} (h : Denotes .sum w n) : Denotes .factor w.parenthesised n
  | single {w : Text} {n : Int} (h : Denotes .factor w n) : Denotes .product w n
  | times {v w : Text} {m n : Int} (hv : Denotes .product v m) (hw : Denotes .factor w n) :
    Denotes .product (v ++ ' ' :: '*' :: ' ' :: w) (m * n)
  | divided {v w : Text} {m n : Int} (hv : Denotes .product v m) (hw : Denotes .factor w n)
    (hzero : n ≠ 0) : Denotes .product (v ++ ' ' :: '/' :: ' ' :: w) (m.tdiv n)
  | dropped {w : Text} {n : Int} (h : Denotes .product w n) :
    Denotes .product (w ++ Roll.droppedMark) 0
  | summand {w : Text} {n : Int} (h : Denotes .product w n) : Denotes .sum w n
  | plus {v w : Text} {m n : Int} (hv : Denotes .sum v m) (hw : Denotes .product w n) :
    Denotes .sum (v ++ ' ' :: '+' :: ' ' :: w) (m + n)
  | minus {v w : Text} {m n : Int} (hv : Denotes .sum v m) (hw : Denotes .product w n) :
    Denotes .sum (v ++ ' ' :: '-' :: ' ' :: w) (m - n)

/-- A sum can follow a sum, since nothing is subtracted before it. -/
theorem Denotes.append {v w : Text} {m n : Int} (hv : Denotes .sum v m) (hw : Denotes .sum w n) :
    Denotes .sum (v ++ ' ' :: '+' :: ' ' :: w) (m + n) := by
  generalize hlevel : Level.sum = level at hw
  induction hw with
  | summand hw => exact .plus hv hw
  | @plus v' w' m' n' _ hw ih =>
    have hsum := Denotes.plus (ih hlevel) hw
    rwa [List.append_assoc, Int.add_assoc] at hsum
  | @minus v' w' m' n' _ hw ih =>
    have hsum := Denotes.minus (ih hlevel) hw
    rwa [List.append_assoc, Int.add_sub_assoc] at hsum
  | _ => cases hlevel

/-- A sum without any sign of addition or subtraction is a product. -/
theorem Denotes.product_of_sum {w : Text} {n : Int} (h : Denotes .sum w n) (hplus : '+' ∉ w)
    (hminus : ¬[' ', '-', ' '] <:+: w) : Denotes .product w n := by
  cases h with
  | summand h => exact h
  | plus _ _ => simp at hplus
  | @minus v w' => exact absurd ⟨v, w', by simp⟩ hminus

theorem denotes_joined {texts : List Text} {ns : List Int}
    (h : List.Forall₂ (Denotes .sum) texts ns) (hne : texts ≠ []) :
    Denotes .sum (Text.joined Roll.plus texts) ns.sum := by
  induction h with
  | nil => exact absurd rfl hne
  | @cons w n texts ns hw hrest ih =>
    cases hrest with
    | nil => simpa using hw
    | cons _ _ =>
      have hsum := hw.append (ih (List.cons_ne_nil _ _))
      rw [Text.joined_cons_cons, List.append_assoc, List.sum_cons]
      exact hsum

/-! A text stands for one number only -/

/-- What has been read of a factor: a number that may go on, or a group. -/
inductive Found where
  | number (negative : Bool) (n : Nat)
  | group (n : Int)

namespace Found

def value : Found → Int
  | number negative n => if negative then -n else n
  | group n => n

def digit (c : Char) : Found → Found
  | number negative n => number negative (10 * n + (c.toNat - '0'.toNat))
  | group n => group n

end Found

/-- What has been read of a sum before its current factor: what becomes of the factor in the
product, and of the product in the sum. -/
structure Place where
  sum : Int → Int
  product : Int → Int

def Place.value (place : Place) (found : Found) : Int := place.sum (place.product found.value)

/-- Reads a text from left to right, with the places of the groups that are open around it. -/
def scan (outer : List Place) (place : Place) (found : Found) : Text → Option Int
  | [] => if outer.isEmpty then some (place.value found) else none
  | c :: rest =>
    if c.isDigit then scan outer place (found.digit c) rest
    else match c, rest with
      | '-', rest => scan outer place (.number true 0) rest
      | '(', rest => scan (place :: outer) ⟨id, id⟩ (.number false 0) rest
      | ')', rest =>
        match outer with
        | [] => none
        | next :: outer => scan outer next (.group (place.value found)) rest
      | ' ', '*' :: ' ' :: rest =>
        scan outer ⟨place.sum, (place.product found.value * ·)⟩ (.number false 0) rest
      | ' ', '/' :: ' ' :: rest =>
        scan outer ⟨place.sum, (place.product found.value).tdiv⟩ (.number false 0) rest
      | ' ', '+' :: ' ' :: rest =>
        scan outer ⟨(place.value found + ·), id⟩ (.number false 0) rest
      | ' ', '-' :: ' ' :: rest =>
        scan outer ⟨(place.value found - ·), id⟩ (.number false 0) rest
      | ' ', '(' :: 'd' :: ')' :: rest => scan outer ⟨place.sum, fun _ => 0⟩ found rest
      | _, _ => none

theorem scan_digits (outer : List Place) (place : Place) (negative : Bool) {ds : Text}
    (h : ∀ d ∈ ds, d.isDigit) (n : Nat) (rest : Text) :
    scan outer place (.number negative n) (ds ++ rest) =
      scan outer place (.number negative (Nat.ofDigitChars 10 ds n)) rest := by
  induction ds generalizing n with
  | nil => rfl
  | cons d ds ih =>
    obtain ⟨hd, hds⟩ := List.forall_mem_cons.mp h
    rw [List.cons_append, scan.eq_def, Nat.ofDigitChars_cons, ← ih hds]
    exact if_pos hd

theorem scan_ofNat (outer : List Place) (place : Place) (negative : Bool) (n : Nat) (rest : Text) :
    scan outer place (.number negative 0) (Text.ofNat n ++ rest) =
      scan outer place (.number negative n) rest := by
  have hdigits : ∀ d ∈ Text.ofNat n, d.isDigit := fun d hd =>
    Nat.isDigit_of_mem_toDigits (by decide) (by decide) hd
  have hvalue : Nat.ofDigitChars 10 (Text.ofNat n) 0 = n := Nat.ofDigitChars_ten_toDigits
  rw [scan_digits outer place negative hdigits, hvalue]

/-- What the scan of a text leaves behind, wherever the text stands. -/
def Scanned : Level → Text → Int → Prop
  | .factor, w, n => ∃ found : Found, found.value = n ∧ ∀ outer place rest,
    scan outer place (.number false 0) (w ++ rest) = scan outer place found rest
  | .product, w, n => ∃ (found : Found) (product : Int → Int), product found.value = n ∧
    ∀ outer sum rest, scan outer ⟨sum, id⟩ (.number false 0) (w ++ rest) =
      scan outer ⟨sum, product⟩ found rest
  | .sum, w, n => ∃ (found : Found) (place : Place), place.value found = n ∧
    ∀ outer rest, scan outer ⟨id, id⟩ (.number false 0) (w ++ rest) =
      scan outer place found rest

theorem scanned_number (n : Int) : Scanned .factor (Text.ofInt n) n := by
  cases n with
  | ofNat n => exact ⟨.number false n, rfl, fun outer place rest => scan_ofNat outer place _ n rest⟩
  | negSucc n =>
    exact ⟨.number true (n + 1), rfl, fun outer place rest => scan_ofNat outer place _ (n + 1) rest⟩

theorem Denotes.scanned {level : Level} {w : Text} {n : Int} (h : Denotes level w n) :
    Scanned level w n := by
  induction h with
  | number n => exact scanned_number n
  | @group w n _ ih =>
    obtain ⟨found, place, hvalue, hscan⟩ := ih
    refine ⟨.group n, rfl, fun outer around rest => ?_⟩
    have htext : w.parenthesised ++ rest = '(' :: (w ++ ')' :: rest) := by
      simp [Text.parenthesised]
    rw [htext, ← hvalue]
    exact hscan (around :: outer) (')' :: rest)
  | single _ ih =>
    obtain ⟨found, hvalue, hscan⟩ := ih
    exact ⟨found, id, hvalue, fun outer sum rest => hscan outer ⟨sum, id⟩ rest⟩
  | @times v w m n _ _ ihv ihw =>
    obtain ⟨before, product, rfl, hv⟩ := ihv
    obtain ⟨found, rfl, hw⟩ := ihw
    refine ⟨found, (product before.value * ·), rfl, fun outer sum rest => ?_⟩
    rw [List.append_assoc, hv]
    exact hw outer _ rest
  | @divided v w m n _ _ _ ihv ihw =>
    obtain ⟨before, product, rfl, hv⟩ := ihv
    obtain ⟨found, rfl, hw⟩ := ihw
    refine ⟨found, (product before.value).tdiv, rfl, fun outer sum rest => ?_⟩
    rw [List.append_assoc, hv]
    exact hw outer _ rest
  | dropped _ ih =>
    obtain ⟨found, product, -, hscan⟩ := ih
    refine ⟨found, fun _ => 0, rfl, fun outer sum rest => ?_⟩
    rw [List.append_assoc, hscan]
    rfl
  | summand _ ih =>
    obtain ⟨found, product, hvalue, hscan⟩ := ih
    exact ⟨found, ⟨id, product⟩, hvalue, fun outer rest => hscan outer id rest⟩
  | @plus v w m n _ _ ihv ihw =>
    obtain ⟨before, place, rfl, hv⟩ := ihv
    obtain ⟨found, product, rfl, hw⟩ := ihw
    refine ⟨found, ⟨(place.value before + ·), product⟩, rfl, fun outer rest => ?_⟩
    rw [List.append_assoc, hv]
    exact hw outer _ rest
  | @minus v w m n _ _ ihv ihw =>
    obtain ⟨before, place, rfl, hv⟩ := ihv
    obtain ⟨found, product, rfl, hw⟩ := ihw
    refine ⟨found, ⟨(place.value before - ·), product⟩, rfl, fun outer rest => ?_⟩
    rw [List.append_assoc, hv]
    exact hw outer _ rest

/-- The number a text stands for as a sum, if there is one. -/
def number? (w : Text) : Option Int := scan [] ⟨id, id⟩ (.number false 0) w

theorem Denotes.number? {w : Text} {n : Int} (h : Denotes .sum w n) : number? w = some n := by
  obtain ⟨found, place, hvalue, hscan⟩ := h.scanned
  have hall := hscan [] []
  rw [List.append_nil] at hall
  rw [Arithmetic.number?, hall, ← hvalue]
  rfl

/-- Nothing else can be read in a text than the number it stands for. -/
theorem Denotes.unique {w : Text} {m n : Int} (hm : Denotes .sum w m) (hn : Denotes .sum w n) :
    m = n :=
  Option.some.inj (hm.number?.symm.trans hn.number?)

end DiceExpr.Arithmetic

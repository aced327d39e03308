import Mathlib.Data.List.Basic
import Mathlib.Data.BitVec
import Mathlib.Tactic.NormNum

/-!
# `inet_pton` for IPv6

An address is read from eight groups of hexadecimal digits with colons between them.  The last two
groups may be a dotted quad, and `::` stands for one or more groups that are zero.

## Main definitions

* `inet_pton` — the library function.
* `inetText` — all eight groups, with four digits each.

## Main results

* `inet_pton_inetText` — every address has a text.
-/

namespace MEADcast

/-- The value of a hexadecimal digit. -/
def hexVal (c : Char) : Option ℕ :=
  if 48 ≤ c.toNat ∧ c.toNat ≤ 57 then some (c.toNat - 48)
  else if 97 ≤ c.toNat ∧ c.toNat ≤ 102 then some (c.toNat - 87)
  else if 65 ≤ c.toNat ∧ c.toNat ≤ 70 then some (c.toNat - 55)
  else none

/-- The number with these digits, the highest first. -/
def ofDigitsBE (b : ℕ) (ds : List ℕ) : ℕ := ds.foldl (fun n d => b * n + d) 0

/-- Up to four hexadecimal digits. -/
def hextet (l : List Char) : Option ℕ :=
  if l ≠ [] ∧ l.length ≤ 4 then (l.mapM hexVal).map (ofDigitsBE 16) else none

/-- Decimal digits without zeros at the front, up to 255. -/
def decOctet (l : List Char) : Option ℕ :=
  if l ≠ [] ∧ l.all Char.isDigit ∧ (l.length = 1 ∨ l.head? ≠ some '0') then
    (l.mapM hexVal).bind fun ds => if ofDigitsBE 10 ds ≤ 255 then some (ofDigitsBE 10 ds) else none
  else none

/-- The dotted quad as two groups. -/
def inet_pton4 (l : List Char) : Option (List ℕ) :=
  match (l.splitOn '.').mapM decOctet with
  | some [a, b, c, d] => some [256 * a + b, 256 * c + d]
  | _ => none

/-- Groups, of which the last one may be a dotted quad. -/
def hextets : List (List Char) → Option (List ℕ)
  | [] => some []
  | [l] => if '.' ∈ l then inet_pton4 l else (hextet l).map ([·])
  | l :: ls => (hextet l).bind fun g => (hextets ls).map (g :: ·)

/-- What stands before the first `::`, and what behind it. -/
def splitGap : List Char → Option (List Char × List Char)
  | [] => none
  | ':' :: ':' :: l => some ([], l)
  | c :: l => (splitGap l).map fun p => (c :: p.1, p.2)

/-- `inet_pton` with `AF_INET6`. -/
def inet_pton (s : String) : Option (BitVec 128) :=
  match splitGap s.toList with
  | none => (hextets (s.toList.splitOn ':')).bind fun gs =>
      if gs.length = 8 then some (BitVec.ofNat 128 (ofDigitsBE 65536 gs)) else none
  | some (l, l') =>
      (if l = [] then some [] else (l.splitOn ':').mapM hextet).bind fun gs =>
        (if l' = [] then some [] else hextets (l'.splitOn ':')).bind fun gs' =>
          if gs.length + gs'.length < 8 then
            some (BitVec.ofNat 128
              (ofDigitsBE 65536 (gs ++ List.replicate (8 - (gs.length + gs'.length)) 0 ++ gs')))
          else none

example : inet_pton "fd15::1" = some 0xfd150000000000000000000000000001 := by decide
example : inet_pton "::" = some 0 ∧ inet_pton "1::2::3" = none ∧ inet_pton "::1.2.3.4" = some 0x01020304 := by
  decide

/-- The digit with this value. -/
def hexDigit (n : ℕ) : Char := Nat.digitChar (n % 16)

/-- A group with four digits. -/
def groupText (g : ℕ) : List Char :=
  [hexDigit (g / 4096), hexDigit (g / 256), hexDigit (g / 16), hexDigit g]

/-- The eight groups of an address. -/
def groups (n : ℕ) : List ℕ :=
  [n / 65536 ^ 7, n / 65536 ^ 6, n / 65536 ^ 5, n / 65536 ^ 4, n / 65536 ^ 3, n / 65536 ^ 2,
    n / 65536, n].map (· % 65536)

/-- An address as text. -/
def inetText (a : BitVec 128) : String :=
  String.ofList ([':'].intercalate ((groups a.toNat).map groupText))

theorem hexVal_hexDigit (n : ℕ) : hexVal (hexDigit n) = some (n % 16) := by
  have h : ∀ m : Fin 16, hexVal (Nat.digitChar m) = some (m : ℕ) := by decide
  exact h ⟨n % 16, Nat.mod_lt _ (by decide)⟩

theorem hexDigit_ne (n : ℕ) : hexDigit n ≠ ':' ∧ hexDigit n ≠ '.' := by
  have h : ∀ m : Fin 16, Nat.digitChar m ≠ ':' ∧ Nat.digitChar m ≠ '.' := by decide
  exact h ⟨n % 16, Nat.mod_lt _ (by decide)⟩

theorem hextet_groupText {g : ℕ} (h : g < 65536) : hextet (groupText g) = some g := by
  have hd : (groupText g).mapM hexVal =
      some [g / 4096 % 16, g / 256 % 16, g / 16 % 16, g % 16] := by
    simp [groupText, hexVal_hexDigit]
  rw [hextet, if_pos ⟨List.cons_ne_nil _ _, le_refl 4⟩, hd, Option.map_some]
  simp only [ofDigitsBE, List.foldl_cons, List.foldl_nil, Option.some.injEq]
  omega

theorem colon_notMem_groupText (g : ℕ) : ':' ∉ groupText g := by
  simp only [groupText, List.mem_cons, List.not_mem_nil, or_false, not_or]
  exact ⟨(hexDigit_ne _).1.symm, (hexDigit_ne _).1.symm, (hexDigit_ne _).1.symm, (hexDigit_ne _).1.symm⟩

theorem dot_notMem_groupText (g : ℕ) : '.' ∉ groupText g := by
  simp only [groupText, List.mem_cons, List.not_mem_nil, or_false, not_or]
  exact ⟨(hexDigit_ne _).2.symm, (hexDigit_ne _).2.symm, (hexDigit_ne _).2.symm, (hexDigit_ne _).2.symm⟩

theorem hextets_groupText : ∀ {gs : List ℕ}, (∀ g ∈ gs, g < 65536) →
    hextets (gs.map groupText) = some gs
  | [], _ => rfl
  | [g], h => by
      rw [List.map_singleton, hextets, if_neg (dot_notMem_groupText g),
        hextet_groupText (h g List.mem_cons_self)]
      rfl
  | g :: g' :: gs, h => by
      have ih : hextets ((g' :: gs).map groupText) = some (g' :: gs) :=
        hextets_groupText fun x hx => h x (List.mem_cons_of_mem _ hx)
      rw [List.map_cons] at ih
      rw [List.map_cons, List.map_cons, hextets, ih, hextet_groupText (h g List.mem_cons_self)]
      · rfl
      · simp

/-- A colon is followed by a digit. -/
theorem splitGap_cons {c d : Char} {l : List Char} (h : c ≠ ':' ∨ d ≠ ':') :
    splitGap (c :: d :: l) = (splitGap (d :: l)).map fun p => (c :: p.1, p.2) := by
  rw [splitGap]
  rintro l' rfl hl
  obtain ⟨rfl, -⟩ := List.cons.inj hl
  simp at h

theorem splitGap_groupText : ∀ gs : List ℕ, splitGap ([':'].intercalate (gs.map groupText)) = none
  | [] => rfl
  | [g] => by
      simp [groupText, splitGap_cons, (hexDigit_ne _).1, splitGap]
  | g :: g' :: gs => by
      have ih := splitGap_groupText (g' :: gs)
      have hhead : ∃ l, [':'].intercalate ((g' :: gs).map groupText) = hexDigit (g' / 4096) :: l := by
        rw [List.map_cons]
        cases gs.map groupText with
        | nil => exact ⟨_, rfl⟩
        | cons t ts => exact ⟨_, List.intercalate_cons_cons⟩
      obtain ⟨l, hl⟩ := hhead
      rw [List.map_cons, List.map_cons, List.intercalate_cons_cons, ← List.map_cons, hl]
      rw [hl] at ih
      simp only [groupText, List.cons_append, List.nil_append]
      rw [splitGap_cons (.inl (hexDigit_ne _).1), splitGap_cons (.inl (hexDigit_ne _).1),
        splitGap_cons (.inl (hexDigit_ne _).1), splitGap_cons (.inl (hexDigit_ne _).1),
        splitGap_cons (.inr (hexDigit_ne _).1), ih]
      rfl

theorem ofDigitsBE_groups {n : ℕ} (h : n < 2 ^ 128) : ofDigitsBE 65536 (groups n) = n := by
  simp only [groups, ofDigitsBE, List.map_cons, List.map_nil, List.foldl_cons, List.foldl_nil]
  norm_num at h ⊢
  omega

/-- Every address has a text. -/
theorem inet_pton_inetText (a : BitVec 128) : inet_pton (inetText a) = some a := by
  have hsplit : ([':'].intercalate ((groups a.toNat).map groupText)).splitOn ':' =
      (groups a.toNat).map groupText := by
    apply List.splitOn_intercalate
    · intro l hl
      obtain ⟨g, -, rfl⟩ := List.mem_map.mp hl
      exact colon_notMem_groupText g
    · exact List.cons_ne_nil _ _
  have hlt : ∀ g ∈ groups a.toNat, g < 65536 := by
    intro g hg
    obtain ⟨n, -, rfl⟩ := List.mem_map.mp hg
    exact Nat.mod_lt _ (by decide)
  rw [inet_pton, inetText, String.toList_ofList, splitGap_groupText]
  simp only
  rw [hsplit, hextets_groupText hlt, Option.bind_some, if_pos (by rfl), ofDigitsBE_groups a.isLt,
    BitVec.ofNat_toNat, BitVec.setWidth_eq]

end MEADcast

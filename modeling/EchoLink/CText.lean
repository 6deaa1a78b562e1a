import Mathlib.Data.Nat.Digits.Defs
import Mathlib.Data.List.Basic
import Mathlib.Data.List.Infix
import Mathlib.Data.List.TakeWhile
import Mathlib.Tactic.IntervalCases

/-!
# C strings, decimal text and `sscanf`

The text layer of a C program, over byte lists: NUL-terminated strings inside
fixed arrays, the decimal text of `%d`, and a scanner for the fragment of
`sscanf` made of literal bytes, white space, `%d` and `%Ns`.  Nothing below
depends on a particular program.

A converted field is stored in the order of its directive, and a scan that
stops early stores fewer fields: the caller's variables keep what they held.
The key facts are `scanInt_decimalInt` (a printed number is read back) and the
`sscanf_*` rewriting lemmas, which execute a format one directive at a time.
`sscanf_pair` says what `"%Ms %Ns"` makes of the white-space separated fields of
any text, those that are too long included.
-/

namespace CText

/-- A block of memory or of a file. -/
abbrev Bytes := List UInt8

/-- The bytes of an ASCII literal. -/
def ascii (s : String) : Bytes := s.toList.map fun c => c.toNat.toUInt8

/-- The C string stored at the start of a buffer: its bytes before the NUL. -/
def cstr (buf : Bytes) : Bytes := buf.takeWhile (· != 0)

/-- `strcpy`: the string and its NUL, with the rest of the array untouched. -/
def strcpy (dst src : Bytes) : Bytes := src ++ 0 :: dst.drop (src.length + 1)

/-- `strncpy(dst, src, n)`: at most `n` bytes, padded with NULs up to `n`. -/
def strncpy (dst src : Bytes) (n : Nat) : Bytes :=
  src.take n ++ List.replicate (n - src.length) 0 ++ dst.drop n

/-- `isspace` in the C locale. -/
def isSpace (b : UInt8) : Bool := b == 32 || (9 ≤ b && b ≤ 13)

def isDigit (b : UInt8) : Bool := 48 ≤ b && b ≤ 57

/-- `tolower` in the C locale. -/
def toLower (b : UInt8) : UInt8 := if 65 ≤ b ∧ b ≤ 90 then b + 32 else b

/-- `strcasecmp(a, b) == 0`. -/
def strcaseeq (a b : Bytes) : Bool := a.map toLower == b.map toLower

/-- `strncmp(line, kw, strlen(kw)) == 0`. -/
def hasPrefix (kw line : Bytes) : Bool := kw.isPrefixOf line

/-- `strstr(line, needle) != NULL`. -/
def strstr (line needle : Bytes) : Bool := line.tails.any needle.isPrefixOf

/-- Repeated `strtok(buffer, "\n")`: the non-empty lines of a C string. -/
def lines (buf : Bytes) : List Bytes :=
  ((cstr buf).splitOnP (· == 10)).filter (· ≠ [])

/-- The fields of a text, which white space separates. -/
def fields (xs : Bytes) : List Bytes := (xs.splitOnP isSpace).filter (· ≠ [])

/-! ### Decimal text -/

/-- The text of `%d` for a number that is not negative. -/
def decimal (n : Nat) : Bytes :=
  if n = 0 then [48] else (Nat.digits 10 n).reverse.map fun d => 48 + d.toUInt8

/-- The text of `%d`. -/
def decimalInt (z : Int) : Bytes :=
  if z < 0 then 45 :: decimal z.natAbs else decimal z.natAbs

/-- The value of a block of digits, most significant first. -/
def digitsValue (ds : Bytes) : Nat :=
  ds.foldl (fun acc b => acc * 10 + (b.toNat - 48)) 0

/-- The body of `%d` after white space: an optional sign and a block of digits. -/
def scanInt (xs : Bytes) : Option (Int × Bytes) :=
  let neg := xs.head? == some 45
  let body := if neg ∨ xs.head? = some 43 then xs.tail else xs
  let ds := body.takeWhile isDigit
  if ds = [] then none
  else some (if neg then -(digitsValue ds : Int) else digitsValue ds, body.drop ds.length)

/-! ### `sscanf` -/

/-- One directive of a format. -/
inductive Directive where
  /-- an ordinary byte, which has to match -/
  | lit (b : UInt8)
  /-- white space, which skips any amount of white space -/
  | ws
  /-- `%d` -/
  | d
  /-- `%Ns` -/
  | s (width : Nat)
  deriving DecidableEq, Repr

/-- One stored field. -/
inductive Field where
  | int (z : Int)
  | str (bs : Bytes)
  deriving DecidableEq, Repr

/-- The ordinary bytes of a format. -/
def literal (bs : Bytes) : List Directive := bs.map .lit

/-- `sscanf`: the fields stored, in the order of their directives. -/
def sscanf : List Directive → Bytes → List Field
  | [], _ => []
  | .lit b :: fmt, xs =>
      if xs.head? = some b then sscanf fmt xs.tail else []
  | .ws :: fmt, xs => sscanf fmt (xs.dropWhile isSpace)
  | .d :: fmt, xs =>
      match scanInt (xs.dropWhile isSpace) with
      | none => []
      | some (z, rest) => .int z :: sscanf fmt rest
  | .s width :: fmt, xs =>
      let ys := xs.dropWhile isSpace
      let tok := (ys.takeWhile fun b => !isSpace b).take width
      if tok = [] then [] else .str tok :: sscanf fmt (ys.drop tok.length)

/-- The number stored by the `k`-th directive that stores one. -/
def intField (fs : List Field) (k : Nat) : Option Int :=
  match fs[k]? with
  | some (.int z) => some z
  | _ => none

/-- The string stored in position `k`; a buffer that was zeroed keeps `""`. -/
def strField (fs : List Field) (k : Nat) : Bytes :=
  match fs[k]? with
  | some (.str bs) => bs
  | _ => []

/-! ### Facts about strings -/

theorem zero_not_mem_cstr (buf : Bytes) : (0 : UInt8) ∉ cstr buf := by
  intro h
  have := List.mem_takeWhile_imp h
  simp at this

/-- A string copied into an array is the string stored there. -/
theorem cstr_append_zero {bs : Bytes} (h : (0 : UInt8) ∉ bs) (rest : Bytes) :
    cstr (bs ++ 0 :: rest) = bs := by
  have hbs : ∀ b ∈ bs, (b != 0) = true := by
    intro b hb
    have : b ≠ 0 := fun h0 => h (h0 ▸ hb)
    simpa using this
  rw [cstr, List.takeWhile_append_of_pos hbs]
  simp

theorem cstr_strcpy {src : Bytes} (h : (0 : UInt8) ∉ src) (dst : Bytes) :
    cstr (strcpy dst src) = src := cstr_append_zero h _

theorem hasPrefix_iff {kw line : Bytes} : hasPrefix kw line = true ↔ kw <+: line := by
  simp [hasPrefix]

theorem hasPrefix_append (kw rest : Bytes) : hasPrefix kw (kw ++ rest) = true := by
  simp [hasPrefix]

/-- Two keywords of which neither starts the other never start one line. -/
theorem not_hasPrefix_of_hasPrefix {kw kw' line : Bytes}
    (h : hasPrefix kw line = true) (hne : ¬ kw <+: kw') (hne' : ¬ kw' <+: kw) :
    hasPrefix kw' line = false := by
  by_contra hc
  rw [Bool.not_eq_false] at hc
  rcases List.prefix_or_prefix_of_prefix (hasPrefix_iff.mp h) (hasPrefix_iff.mp hc) with h1 | h1
  · exact hne h1
  · exact hne' h1

theorem strstr_iff {line needle : Bytes} : strstr line needle = true ↔ needle <:+: line := by
  simp only [strstr, List.any_eq_true, List.mem_tails, List.isPrefixOf_iff_prefix]
  constructor
  · rintro ⟨t, ht, hp⟩
    exact hp.isInfix.trans ht.isInfix
  · rintro ⟨a, b, h⟩
    exact ⟨needle ++ b, ⟨a, by simpa using h⟩, List.prefix_append _ _⟩

/-- Where a needle with one separator lies in a line of separated fields: over
the end of one field and the start of the next. -/
theorem infix_separated {sep : UInt8} {x y t rest : Bytes} (hx : sep ∉ x) (ht : sep ∉ t) :
    x ++ sep :: y <:+: t ++ sep :: rest ↔
      (x <:+ t ∧ y <+: rest) ∨ x ++ sep :: y <:+: rest := by
  constructor
  · rintro ⟨a, b, h⟩
    have h' : (a ++ x) ++ sep :: (y ++ b) = t ++ sep :: rest := by simpa using h
    rcases List.append_eq_append_iff.mp h' with ⟨c, hc, hr⟩ | ⟨c, hc, hr⟩
    · cases c with
      | nil =>
          simp only [List.append_nil, List.nil_append, List.cons.injEq, true_and] at hc hr
          exact Or.inl ⟨⟨a, hc.symm⟩, ⟨b, hr⟩⟩
      | cons s c =>
          simp only [List.cons_append, List.cons.injEq] at hr
          exact absurd (by simp [hc, hr.1]) ht
    · cases c with
      | nil =>
          simp only [List.append_nil, List.nil_append, List.cons.injEq, true_and] at hc hr
          exact Or.inl ⟨⟨a, hc⟩, ⟨b, hr.symm⟩⟩
      | cons s c =>
          simp only [List.cons_append, List.cons.injEq] at hr
          obtain ⟨rfl, hrest⟩ := hr
          have hc' : a ++ x = (t ++ [sep]) ++ c := by simpa using hc
          rcases List.append_eq_append_iff.mp hc' with ⟨d, hd, hxd⟩ | ⟨d, hd, hxd⟩
          · rcases List.eq_nil_or_concat d with rfl | ⟨d', s', rfl⟩
            · exact Or.inr ⟨[], b, by rw [hrest, hxd]; simp⟩
            · have hlast : sep = s' := by
                have := congrArg List.getLast? hd
                simpa using this
              exact absurd (by simp [hxd, hlast]) hx
          · exact Or.inr ⟨d, b, by rw [hrest, hxd]; simp⟩
  · rintro (⟨⟨a, rfl⟩, ⟨b, rfl⟩⟩ | ⟨a, b, h⟩)
    · exact ⟨a, b, by simp⟩
    · exact ⟨t ++ sep :: a, b, by rw [← h]; simp⟩

/-- A needle with a separator is in no single field. -/
theorem not_infix_field {sep : UInt8} {x y t : Bytes} (ht : sep ∉ t) :
    ¬ x ++ sep :: y <:+: t := by
  intro h
  exact ht (h.subset (by simp))

/-- A needle without separators at the start of a line is in its first field. -/
theorem prefix_separated {sep : UInt8} {y t rest : Bytes} (hy : sep ∉ y) :
    y <+: t ++ sep :: rest ↔ y <+: t := by
  constructor
  · rintro ⟨b, h⟩
    rcases List.append_eq_append_iff.mp h with ⟨c, hc, _⟩ | ⟨c, hc, hr⟩
    · exact ⟨c, hc.symm⟩
    · cases c with
      | nil => exact ⟨[], by simpa using hc⟩
      | cons s c =>
          simp only [List.cons_append, List.cons.injEq] at hr
          exact absurd (by simp [hc, hr.1]) hy
  · intro h
    exact h.trans (List.prefix_append _ _)

/-- A line written whole is the next line read. -/
theorem lines_line_append {l : Bytes} (rest : Bytes) (hne : l ≠ [])
    (hnl : (10 : UInt8) ∉ l) (h0 : (0 : UInt8) ∉ l) :
    lines (l ++ 10 :: rest) = l :: lines rest := by
  have hcut : cstr (l ++ 10 :: rest) = l ++ 10 :: cstr rest := by
    have hl : ∀ b ∈ l, (b != 0) = true := by
      intro b hb
      have : b ≠ 0 := fun hb0 => h0 (hb0 ▸ hb)
      simpa using this
    rw [cstr, List.takeWhile_append_of_pos hl]
    simp [cstr]
  have hsplit : ∀ x ∈ l, (x == (10 : UInt8)) = false := by
    intro x hx
    have : x ≠ 10 := fun h => hnl (h ▸ hx)
    simpa using this
  rw [lines, hcut, List.splitOnP_append_cons_of_forall_mem hsplit 10 (by decide)]
  simp [lines, hne]

private theorem splitOnP_free {p : UInt8 → Bool} {xs l : Bytes} (h : l ∈ xs.splitOnP p) :
    ∀ x ∈ l, p x = false := by
  induction xs generalizing l with
  | nil => simp_all
  | cons x xs ih =>
      rw [List.splitOnP_cons_eq_if_modifyHead] at h
      by_cases hx : p x = true
      · simp only [hx, if_true, List.mem_cons] at h
        rcases h with rfl | h
        · simp
        · exact ih h
      · obtain ⟨hd, tl, htl⟩ := List.exists_cons_of_ne_nil (List.splitOnP_ne_nil p xs)
        rw [if_neg hx, htl, List.modifyHead_cons, List.mem_cons] at h
        rcases h with rfl | h
        · have hhd := ih (l := hd) (by simp [htl])
          simpa [hx] using hhd
        · exact ih (by simp [htl, h])

theorem newline_not_mem_of_mem_lines {buf l : Bytes} (h : l ∈ lines buf) : (10 : UInt8) ∉ l := by
  intro h10
  rw [lines, List.mem_filter] at h
  have := splitOnP_free h.1 10 h10
  simp at this

/-- A log made of whole lines is read back line by line. -/
theorem lines_flatMap {ls : List Bytes}
    (h : ∀ l ∈ ls, l ≠ [] ∧ (10 : UInt8) ∉ l ∧ (0 : UInt8) ∉ l) :
    lines (ls.flatMap fun l => l ++ [10]) = ls := by
  induction ls with
  | nil => rfl
  | cons l ls ih =>
      obtain ⟨hne, hnl, h0⟩ := h l List.mem_cons_self
      have htail := ih fun l' hl' => h l' (List.mem_cons_of_mem _ hl')
      simp only [List.flatMap_cons, List.append_assoc, List.cons_append, List.nil_append]
      rw [lines_line_append _ hne hnl h0, htail]

/-! ### Facts about decimal text -/

private theorem digit_toNat {d : Nat} (h : d < 10) : (48 + d.toUInt8 : UInt8).toNat = 48 + d := by
  interval_cases d <;> rfl

private theorem isDigit_digit {d : Nat} (h : d < 10) : isDigit (48 + d.toUInt8) = true := by
  interval_cases d <;> rfl

theorem isDigit_of_mem_decimal {n : Nat} {b : UInt8} (h : b ∈ decimal n) : isDigit b = true := by
  unfold decimal at h
  split at h
  · simp only [List.mem_singleton] at h
    subst h
    rfl
  · simp only [List.mem_map, List.mem_reverse] at h
    obtain ⟨d, hd, rfl⟩ := h
    exact isDigit_digit (Nat.digits_lt_base (by decide) hd)

theorem decimal_ne_nil (n : Nat) : decimal n ≠ [] := by
  unfold decimal
  split
  · simp
  · rename_i h
    simpa using Nat.digits_ne_nil_iff_ne_zero.mpr h

private theorem foldr_digits {L : List Nat} (h : ∀ d ∈ L, d < 10) :
    (L.map fun d => (48 + d.toUInt8 : UInt8)).foldr (fun b acc => acc * 10 + (b.toNat - 48)) 0
      = Nat.ofDigits 10 L := by
  induction L with
  | nil => rfl
  | cons d L ih =>
      have hd := digit_toNat (h d List.mem_cons_self)
      have hL := ih fun d' hd' => h d' (List.mem_cons_of_mem _ hd')
      simp only [List.map_cons, List.foldr_cons, hL, hd, Nat.ofDigits_cons]
      omega

theorem digitsValue_decimal (n : Nat) : digitsValue (decimal n) = n := by
  unfold decimal
  split
  · rename_i h
    subst h
    rfl
  · have hlt : ∀ d ∈ Nat.digits 10 n, d < 10 := fun d hd => Nat.digits_lt_base (by decide) hd
    rw [digitsValue, List.map_reverse, List.foldl_reverse, foldr_digits hlt, Nat.ofDigits_digits]

theorem mem_decimalInt {z : Int} {b : UInt8} (h : b ∈ decimalInt z) : b = 45 ∨ isDigit b = true := by
  unfold decimalInt at h
  split at h
  · rcases List.mem_cons.mp h with rfl | h
    · exact Or.inl rfl
    · exact Or.inr (isDigit_of_mem_decimal h)
  · exact Or.inr (isDigit_of_mem_decimal h)

theorem not_mem_decimalInt {z : Int} {b : UInt8} (hb : isDigit b = false) (h45 : b ≠ 45) :
    b ∉ decimalInt z := by
  intro h
  rcases mem_decimalInt h with h | h
  · exact h45 h
  · rw [h] at hb
    cases hb

theorem not_isSpace_of_mem_decimalInt {z : Int} {b : UInt8} (h : b ∈ decimalInt z) :
    isSpace b = false := by
  by_contra hs
  rw [Bool.not_eq_false] at hs
  rcases mem_decimalInt h with rfl | hd
  · exact absurd hs (by decide)
  · simp only [isDigit, isSpace, Bool.and_eq_true, Bool.or_eq_true, beq_iff_eq,
      decide_eq_true_eq, UInt8.le_iff_toNat_le, ← UInt8.toNat_inj, UInt8.toNat_ofNat] at hd hs
    omega

theorem decimalInt_ne_nil (z : Int) : decimalInt z ≠ [] := by
  unfold decimalInt
  split
  · simp
  · exact decimal_ne_nil _

private theorem takeWhile_digits {ds rest : Bytes} (hds : ∀ b ∈ ds, isDigit b = true)
    (hrest : ∀ b, rest.head? = some b → isDigit b = false) :
    (ds ++ rest).takeWhile isDigit = ds := by
  rw [List.takeWhile_append_of_pos hds]
  cases rest with
  | nil => simp
  | cons b rest => simp [hrest b rfl]

/-- A printed number is read back, whatever follows it, unless a digit does. -/
theorem scanInt_decimalInt (z : Int) {rest : Bytes}
    (hrest : ∀ b, rest.head? = some b → isDigit b = false) :
    scanInt (decimalInt z ++ rest) = some (z, rest) := by
  have hds : ∀ b ∈ decimal z.natAbs, isDigit b = true := fun b hb => isDigit_of_mem_decimal hb
  have htake := takeWhile_digits hds hrest
  by_cases hz : z < 0
  · have hval : -|z| = z := by rw [abs_of_neg hz, neg_neg]
    simp [scanInt, decimalInt, hz, htake, decimal_ne_nil, digitsValue_decimal, hval]
  · obtain ⟨b, ds, hb⟩ : ∃ b ds, decimal z.natAbs = b :: ds :=
      List.exists_cons_of_ne_nil (decimal_ne_nil _)
    have hdig : isDigit b = true := hds b (by simp [hb])
    have h45 : b ≠ 45 := by
      rintro rfl
      exact absurd hdig (by decide)
    have h43 : b ≠ 43 := by
      rintro rfl
      exact absurd hdig (by decide)
    have hval : |z| = z := abs_of_nonneg (by omega)
    have hhead : (decimal z.natAbs ++ rest).head? = some b := by simp [hb]
    simp [scanInt, decimalInt, hz, hhead, h45, h43, htake, decimal_ne_nil, digitsValue_decimal,
      hval]

/-! ### Executing a format -/

theorem dropWhile_isSpace_of_head {xs : Bytes}
    (h : ∀ b, xs.head? = some b → isSpace b = false) : xs.dropWhile isSpace = xs := by
  cases xs with
  | nil => rfl
  | cons b xs => simp [h b rfl]

theorem sscanf_literal (bs : Bytes) (fmt : List Directive) (xs : Bytes) :
    sscanf (literal bs ++ fmt) (bs ++ xs) = sscanf fmt xs := by
  induction bs with
  | nil => rfl
  | cons b bs ih => simpa [literal, sscanf] using ih

theorem sscanf_ws {b : UInt8} (hb : isSpace b = true) (fmt : List Directive) {xs : Bytes}
    (h : ∀ b, xs.head? = some b → isSpace b = false) :
    sscanf (.ws :: fmt) (b :: xs) = sscanf fmt xs := by
  simp [sscanf, hb, dropWhile_isSpace_of_head h]

theorem sscanf_d (z : Int) (fmt : List Directive) (rest : Bytes)
    (hrest : ∀ b, rest.head? = some b → isDigit b = false) :
    sscanf (.d :: fmt) (decimalInt z ++ rest) = .int z :: sscanf fmt rest := by
  have hhead : ∀ b, (decimalInt z ++ rest).head? = some b → isSpace b = false := by
    intro b hb
    have hmem : b ∈ decimalInt z := by
      obtain ⟨c, cs, hc⟩ := List.exists_cons_of_ne_nil (decimalInt_ne_nil z)
      simp only [hc, List.cons_append, List.head?_cons, Option.some.injEq] at hb
      simp [hc, hb]
    exact not_isSpace_of_mem_decimalInt hmem
  rw [sscanf, dropWhile_isSpace_of_head hhead, scanInt_decimalInt z hrest]

/-- `%Ns` takes a whole field when it fits and white space or the end follows. -/
theorem sscanf_s {tok : Bytes} (fmt : List Directive) {width : Nat} {rest : Bytes}
    (hne : tok ≠ []) (htok : ∀ b ∈ tok, isSpace b = false) (hlen : tok.length ≤ width)
    (hrest : ∀ b, rest.head? = some b → isSpace b = true) :
    sscanf (.s width :: fmt) (tok ++ rest) = .str tok :: sscanf fmt rest := by
  have hhead : ∀ b, (tok ++ rest).head? = some b → isSpace b = false := by
    intro b hb
    obtain ⟨c, cs, rfl⟩ := List.exists_cons_of_ne_nil hne
    simp only [List.cons_append, List.head?_cons, Option.some.injEq] at hb
    exact hb ▸ htok c List.mem_cons_self
  have htake : (tok ++ rest).takeWhile (fun b => !isSpace b) = tok := by
    rw [List.takeWhile_append_of_pos (by simpa using htok)]
    cases rest with
    | nil => simp
    | cons b rest => simp [hrest b rfl]
  simp [sscanf, dropWhile_isSpace_of_head hhead, htake, List.take_of_length_le hlen, hne]

/-! ### Fields -/

@[simp] theorem fields_nil : fields [] = [] := rfl

theorem fields_cons_space {b : UInt8} (hb : isSpace b = true) (xs : Bytes) :
    fields (b :: xs) = fields xs := by
  simp [fields, List.splitOnP_cons_eq_if_modifyHead, hb]

theorem fields_dropWhile (xs : Bytes) : fields (xs.dropWhile isSpace) = fields xs := by
  induction xs with
  | nil => rfl
  | cons b xs ih =>
      by_cases hb : isSpace b = true
      · rw [List.dropWhile_cons_of_pos hb, ih, fields_cons_space hb]
      · rw [List.dropWhile_cons_of_neg hb]

/-- A field that white space or the end follows is the next field. -/
theorem fields_append {tok rest : Bytes} (hne : tok ≠ []) (htok : ∀ b ∈ tok, isSpace b = false)
    (hrest : ∀ b, rest.head? = some b → isSpace b = true) :
    fields (tok ++ rest) = tok :: fields rest := by
  cases rest with
  | nil =>
      have hsplit : tok.splitOnP isSpace = [tok] := by
        rw [List.splitOnP_eq_singleton]
        exact htok
      simp [fields, hsplit, hne]
  | cons b rest =>
      rw [fields_cons_space (hrest b rfl), fields,
        List.splitOnP_append_cons_of_forall_mem htok b (hrest b rfl)]
      simp [fields, hne]

/-- A text with a field starts, after white space, with the first one. -/
theorem fields_cases (xs : Bytes) :
    (xs.dropWhile isSpace = [] ∧ fields xs = []) ∨
      ∃ f rest, xs.dropWhile isSpace = f ++ rest ∧ f ≠ [] ∧ (∀ b ∈ f, isSpace b = false) ∧
        (∀ b, rest.head? = some b → isSpace b = true) ∧ fields xs = f :: fields rest := by
  have hsplit := List.takeWhile_append_dropWhile (p := fun b => !isSpace b) (l := xs.dropWhile isSpace)
  cases hys : xs.dropWhile isSpace with
  | nil => exact Or.inl ⟨rfl, by rw [← fields_dropWhile, hys, fields_nil]⟩
  | cons b ys =>
      have hb : isSpace b = false := by
        have hhead := List.head?_dropWhile_not isSpace xs
        rw [hys] at hhead
        simpa using hhead
      have hne : (b :: ys).takeWhile (fun b => !isSpace b) ≠ [] := by simp [hb]
      have htok : ∀ x ∈ (b :: ys).takeWhile (fun b => !isSpace b), isSpace x = false := by
        intro x hx
        simpa using List.mem_takeWhile_imp hx
      have hrest : ∀ x, ((b :: ys).dropWhile fun b => !isSpace b).head? = some x → isSpace x = true := by
        intro x hx
        have hhead := List.head?_dropWhile_not (fun b => !isSpace b) (b :: ys)
        rw [hx] at hhead
        simpa using hhead
      rw [hys] at hsplit
      refine Or.inr ⟨_, _, hsplit.symm, hne, htok, hrest, ?_⟩
      rw [← fields_append hne htok hrest, hsplit, ← hys, fields_dropWhile]

theorem ne_nil_of_mem_fields {xs f : Bytes} (h : f ∈ fields xs) : f ≠ [] := by
  simpa using (List.mem_filter.mp h).2

/-- The fields that are left after `%Ns`: when the first field is longer, the
rest of it is the next field. -/
def leftover (n : Nat) : List Bytes → List Bytes
  | [] => []
  | f :: fs => if f.length ≤ n then fs else f.drop n :: fs

/-- **`%Ns` on a text**: it stores the first field, or the first `N` bytes of
it, and goes on behind them. -/
theorem sscanf_s_fields {n : Nat} (hn : 0 < n) (fmt : List Directive) (xs : Bytes) :
    (fields xs = [] ∧ sscanf (.s n :: fmt) xs = []) ∨
      ∃ f fs rest, fields xs = f :: fs ∧ sscanf (.s n :: fmt) xs = .str (f.take n) :: sscanf fmt rest ∧
        fields rest = leftover n (f :: fs) := by
  rcases fields_cases xs with ⟨hnil, hfields⟩ | ⟨f, rest, hys, hne, hf, hrest, hfields⟩
  · exact Or.inl ⟨hfields, by simp [sscanf, hnil]⟩
  · refine Or.inr ⟨f, fields rest, f.drop n ++ rest, hfields, ?_, ?_⟩
    · have htake : (f ++ rest).takeWhile (fun b => !isSpace b) = f := by
        rw [List.takeWhile_append_of_pos (by simpa using hf)]
        cases rest with
        | nil => simp
        | cons b rest => simp [hrest b rfl]
      have htok : f.take n ≠ [] := by
        simp only [ne_eq, List.take_eq_nil_iff, not_or]
        exact ⟨by omega, hne⟩
      have hdrop : (f ++ rest).drop (f.take n).length = f.drop n ++ rest := by
        rw [List.drop_append, List.length_take]
        by_cases hlen : f.length ≤ n
        · simp [Nat.min_eq_right hlen, List.drop_eq_nil_of_le hlen]
        · have hmin : min n f.length = n := by omega
          simp [hmin, show n - f.length = 0 by omega]
      simp only [sscanf, hys, htake, if_neg htok, hdrop]
    · rw [leftover]
      split
      · rename_i hlen
        rw [List.drop_eq_nil_of_le hlen, List.nil_append]
      · rename_i hlen
        have hdrop : f.drop n ≠ [] := by
          simp only [ne_eq, List.drop_eq_nil_iff]
          exact hlen
        exact fields_append hdrop (fun b hb => hf b (List.mem_of_mem_drop hb)) hrest

/-- **`%Ms %Ns` on a text.** -/
theorem sscanf_pair {m n : Nat} (hm : 0 < m) (hn : 0 < n) (xs : Bytes) :
    strField (sscanf [.s m, .ws, .s n] xs) 0 = ((fields xs).headD []).take m ∧
      strField (sscanf [.s m, .ws, .s n] xs) 1 = ((leftover m (fields xs)).headD []).take n := by
  rcases sscanf_s_fields hm [.ws, .s n] xs with ⟨hfields, hscan⟩ | ⟨f, fs, rest, hfields, hscan, hrest⟩
  · rw [hfields, hscan]
    exact ⟨by simp [strField], by simp [strField, leftover]⟩
  · rw [hfields, hscan, ← hrest, sscanf, ← fields_dropWhile rest]
    refine ⟨rfl, ?_⟩
    rcases sscanf_s_fields hn [] (rest.dropWhile isSpace) with ⟨hf, hs⟩ | ⟨g, gs, rest', hf, hs, _⟩
    · rw [hf, hs]
      simp [strField]
    · rw [hf, hs]
      rfl

end CText

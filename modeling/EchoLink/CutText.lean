import EchoLink.CText

/-!
# Texts that were cut off

What `sscanf` and the split into lines make of a text of which only the first
bytes are left.  A number that lost digits has at most a tenth of its value
(`scanInt_cut`), a string field loses its last bytes (`sscanf_cut_s`), and
nothing is stored for the fields behind the cut.  Whole lines in front of a cut
are read as before (`lines_flatMap_append`), and so are those behind it when the
first bytes are missing (`lines_drop`).
-/

namespace CText

/-! ### Lines -/

/-- Whole lines are read back in front of any text. -/
theorem lines_flatMap_append {ls : List Bytes} (h : ∀ l ∈ ls, l ≠ [] ∧ (10 : UInt8) ∉ l ∧ (0 : UInt8) ∉ l)
    (tail : Bytes) : lines (ls.flatMap (fun l => l ++ [10]) ++ tail) = ls ++ lines tail := by
  induction ls with
  | nil => rfl
  | cons l ls ih =>
      obtain ⟨hne, hnl, h0⟩ := h l List.mem_cons_self
      have htail := ih fun l' hl' => h l' (List.mem_cons_of_mem _ hl')
      simp only [List.flatMap_cons, List.append_assoc, List.cons_append, List.nil_append]
      rw [lines_line_append _ hne hnl h0, htail]

@[simp] theorem lines_nil : lines [] = [] := rfl

/-- The last line need not end in a newline. -/
theorem lines_single {l : Bytes} (hne : l ≠ []) (hnl : (10 : UInt8) ∉ l) (h0 : (0 : UInt8) ∉ l) :
    lines l = [l] := by
  have hcut : cstr l = l := by
    rw [cstr, List.takeWhile_eq_self_iff]
    intro b hb
    have hb0 : b ≠ 0 := fun h => h0 (h ▸ hb)
    simpa using hb0
  have hsplit : ∀ x ∈ l, (x == (10 : UInt8)) = false := by
    intro x hx
    have hx10 : x ≠ 10 := fun h => hnl (h ▸ hx)
    simpa using hx10
  rw [lines, hcut, List.splitOnP_eq_singleton hsplit]
  simp [hne]

/-- **Lines of a text that was cut off**: a part of the first line, or that line and
the lines of what is left behind it. -/
theorem lines_take {l : Bytes} (hne : l ≠ []) (hnl : (10 : UInt8) ∉ l) (h0 : (0 : UInt8) ∉ l) (rest : Bytes) (k : Nat) :
    lines ((l ++ 10 :: rest).take k) =
      if k = 0 then [] else if k ≤ l.length then [l.take k] else l :: lines (rest.take (k - (l.length + 1))) := by
  split
  · rename_i hzero
    rw [hzero, List.take_zero, lines_nil]
  · rename_i hpos
    split
    · rename_i hle
      rw [List.take_append_of_le_length hle]
      apply lines_single
      · simp only [ne_eq, List.take_eq_nil_iff, not_or]
        exact ⟨hpos, hne⟩
      · exact fun hmem => hnl (List.mem_of_mem_take hmem)
      · exact fun hmem => h0 (List.mem_of_mem_take hmem)
    · rename_i hgt
      obtain ⟨j, hj⟩ : ∃ j, k - l.length = j + 1 := ⟨k - l.length - 1, by omega⟩
      have hj' : k - (l.length + 1) = j := by omega
      rw [List.take_append, List.take_of_length_le (by omega), hj, hj', List.take_succ_cons,
        lines_line_append _ hne hnl h0]

/-- A cut makes no new lines. -/
theorem length_lines_take {ls : List Bytes} (h : ∀ l ∈ ls, l ≠ [] ∧ (10 : UInt8) ∉ l ∧ (0 : UInt8) ∉ l) (k : Nat) :
    (lines ((ls.flatMap fun l => l ++ [10]).take k)).length ≤ ls.length := by
  induction ls generalizing k with
  | nil => simp
  | cons l ls ih =>
      obtain ⟨hne, hnl, h0⟩ := h l List.mem_cons_self
      have hrest := ih (fun l' hl' => h l' (List.mem_cons_of_mem _ hl')) (k - (l.length + 1))
      simp only [List.flatMap_cons, List.append_assoc, List.cons_append, List.nil_append]
      rw [lines_take hne hnl h0]
      split
      · exact Nat.zero_le _
      · split
        · exact Nat.succ_le_succ (Nat.zero_le _)
        · exact Nat.succ_le_succ hrest

/-- A cut leaves whole lines and a part of the next one. -/
theorem take_flatMap_lines (ls : List Bytes) (n : Nat) :
    ∃ N t, (ls.flatMap fun l => l ++ [10]).take n = ((ls.take N).flatMap fun l => l ++ [10]) ++ t ∧
      (t = [] ∨ ∃ l k, ls[N]? = some l ∧ k ≠ 0 ∧ t = l.take k) := by
  induction ls generalizing n with
  | nil => exact ⟨0, [], by simp, Or.inl rfl⟩
  | cons l ls ih =>
      by_cases hle : n ≤ l.length
      · refine ⟨0, l.take n, ?_, ?_⟩
        · simp [List.take_append_of_le_length hle]
        · by_cases hzero : n = 0
          · exact Or.inl (by rw [hzero, List.take_zero])
          · exact Or.inr ⟨l, n, rfl, hzero, rfl⟩
      · obtain ⟨N, t, htake, ht⟩ := ih (n - (l.length + 1))
        have hline : (l ++ [10]).length ≤ n := by
          simp only [List.length_append, List.length_singleton]
          omega
        have hlength : (l ++ [10]).length = l.length + 1 := by simp
        refine ⟨N + 1, t, ?_, ht⟩
        rw [List.flatMap_cons, List.take_append, List.take_of_length_le hline, hlength, htake,
          List.take_succ_cons, List.flatMap_cons, List.append_assoc (l ++ [10])]

/-! ### Lines of the end of a text -/

theorem lines_newline (xs : Bytes) : lines (10 :: xs) = lines xs := by
  have hcut : cstr (10 :: xs) = 10 :: cstr xs := by simp [cstr]
  rw [lines, lines, hcut, List.splitOnP_cons_eq_if_modifyHead]
  simp

/-- The bytes up to the first newline. -/
theorem first_line {xs : Bytes} (h0 : (0 : UInt8) ∉ xs) :
    ∃ w, (10 : UInt8) ∉ w ∧ (0 : UInt8) ∉ w ∧ (xs = w ∨ ∃ rest, xs = w ++ 10 :: rest) := by
  have hsplit := List.takeWhile_append_dropWhile (p := fun c => c != (10 : UInt8)) (l := xs)
  refine ⟨xs.takeWhile fun c => c != 10, ?_, ?_, ?_⟩
  · intro hmem
    have hne := List.mem_takeWhile_imp hmem
    simp at hne
  · intro hmem
    exact h0 ((List.takeWhile_sublist _).subset hmem)
  · cases hrest : xs.dropWhile (fun c => c != 10) with
    | nil =>
        rw [hrest, List.append_nil] at hsplit
        exact Or.inl hsplit.symm
    | cons c rest =>
        have hc : c = 10 := by
          have hhead := List.head?_dropWhile_not (fun c => c != (10 : UInt8)) xs
          rw [hrest] at hhead
          simpa using hhead
        rw [hrest, hc] at hsplit
        exact Or.inr ⟨rest, hsplit.symm⟩

/-- Without its first byte a text has the same lines, or the first is shorter, or it is
gone. -/
theorem lines_tail {xs : Bytes} (h0 : (0 : UInt8) ∉ xs) :
    lines xs.tail = lines xs ∨ lines xs.tail = (lines xs).tail ∨
      ∃ l rest, lines xs = l :: rest ∧ lines xs.tail = l.tail :: rest := by
  cases xs with
  | nil => exact Or.inl rfl
  | cons b xs =>
      rw [List.mem_cons, not_or] at h0
      by_cases hb : b = 10
      · subst hb
        exact Or.inl (lines_newline xs).symm
      · right
        obtain ⟨w, hnl, hw0, hxs⟩ := first_line h0.2
        have hbw10 : (10 : UInt8) ∉ b :: w := by
          rw [List.mem_cons, not_or]
          exact ⟨fun h => hb h.symm, hnl⟩
        have hbw0 : (0 : UInt8) ∉ b :: w := by
          rw [List.mem_cons, not_or]
          exact ⟨h0.1, hw0⟩
        rw [List.tail_cons]
        rcases hxs with rfl | ⟨rest, rfl⟩
        · rw [lines_single (List.cons_ne_nil _ _) hbw10 hbw0]
          by_cases hw : xs = []
          · left
            rw [hw]
            rfl
          · exact Or.inr ⟨b :: xs, [], rfl, lines_single hw hnl hw0⟩
        · have hlong : lines (b :: (w ++ 10 :: rest)) = (b :: w) :: lines rest := by
            rw [← List.cons_append]
            exact lines_line_append rest (List.cons_ne_nil _ _) hbw10 hbw0
          rw [hlong]
          by_cases hw : w = []
          · left
            rw [hw, List.nil_append, lines_newline]
            rfl
          · exact Or.inr ⟨b :: w, lines rest, rfl, lines_line_append rest hw hnl hw0⟩

/-- **Lines of the end of a text**: the last lines, behind a part of the one before them. -/
theorem lines_drop {xs : Bytes} (h0 : (0 : UInt8) ∉ xs) (n : Nat) :
    ∃ j, lines (xs.drop n) = (lines xs).drop j ∨
      ∃ l p, (lines xs)[j]? = some l ∧ p ≠ 0 ∧ lines (xs.drop n) = l.drop p :: (lines xs).drop (j + 1) := by
  induction n with
  | zero => exact ⟨0, Or.inl rfl⟩
  | succ n ih =>
      have htail : xs.drop (n + 1) = (xs.drop n).tail := by rw [List.tail_drop]
      have hstep := lines_tail fun hmem => h0 ((List.drop_sublist n xs).subset hmem)
      rw [htail]
      obtain ⟨j, hwhole | ⟨l, p, hl, hp, hpart⟩⟩ := ih
      · rcases hstep with hsame | hgone | ⟨l, rest, hlines, hshort⟩
        · exact ⟨j, Or.inl (hsame.trans hwhole)⟩
        · exact ⟨j + 1, Or.inl (by rw [hgone, hwhole, List.tail_drop])⟩
        · have hdrop : (lines xs).drop j = l :: rest := hwhole.symm.trans hlines
          have hget : (lines xs)[j]? = some l := by
            rw [← List.head?_drop, hdrop]
            rfl
          have hrest : (lines xs).drop (j + 1) = rest := by
            rw [← List.tail_drop, hdrop]
            rfl
          exact ⟨j, Or.inr ⟨l, 1, hget, Nat.one_ne_zero, by rw [hshort, hrest, List.drop_one]⟩⟩
      · rcases hstep with hsame | hgone | ⟨l', rest, hlines, hshort⟩
        · exact ⟨j, Or.inr ⟨l, p, hl, hp, hsame.trans hpart⟩⟩
        · exact ⟨j + 1, Or.inl (by rw [hgone, hpart]; rfl)⟩
        · obtain ⟨rfl, rfl⟩ := List.cons.inj (hpart.symm.trans hlines)
          exact ⟨j, Or.inr ⟨l, p + 1, hl, Nat.succ_ne_zero p, by rw [hshort, List.tail_drop]⟩⟩

/-! ### Numbers -/

private theorem foldl_digits_ge (ys : Bytes) (acc : Nat) :
    acc ≤ ys.foldl (fun acc b => acc * 10 + (b.toNat - 48)) acc := by
  induction ys generalizing acc with
  | nil => exact Nat.le_refl _
  | cons y ys ih =>
      have hrest := ih (acc * 10 + (y.toNat - 48))
      rw [List.foldl_cons]
      omega

/-- Digits that are cut off make the value at least ten times smaller. -/
theorem digitsValue_cut (xs : Bytes) {ys : Bytes} (hys : ys ≠ []) : 10 * digitsValue xs ≤ digitsValue (xs ++ ys) := by
  obtain ⟨y, ys, rfl⟩ := List.exists_cons_of_ne_nil hys
  have hge := foldl_digits_ge ys (digitsValue xs * 10 + (y.toNat - 48))
  rw [digitsValue, digitsValue, List.foldl_append, List.foldl_cons]
  rw [digitsValue] at hge
  omega

theorem digitsValue_take {n k : Nat} (hk : k < (decimal n).length) : 10 * digitsValue ((decimal n).take k) ≤ n := by
  have hrest : (decimal n).drop k ≠ [] := by
    intro hnil
    have hlen := congrArg List.length hnil
    rw [List.length_drop, List.length_nil] at hlen
    omega
  have hle := digitsValue_cut ((decimal n).take k) hrest
  rwa [List.take_append_drop, digitsValue_decimal] at hle

/-- A block of digits, without a sign and with one. -/
private theorem scanInt_block {ds : Bytes} (hne : ds ≠ []) (hds : ∀ b ∈ ds, isDigit b = true) :
    scanInt ds = some ((digitsValue ds : Int), []) ∧ scanInt (45 :: ds) = some (-(digitsValue ds : Int), []) := by
  have hall : ds.takeWhile isDigit = ds := List.takeWhile_eq_self_iff.mpr hds
  obtain ⟨b, bs, hb⟩ := List.exists_cons_of_ne_nil hne
  have hdigit : isDigit b = true := hds b (by rw [hb]; exact List.mem_cons_self)
  have h45 : b ≠ 45 := by
    rintro rfl
    exact absurd hdigit (by decide)
  have h43 : b ≠ 43 := by
    rintro rfl
    exact absurd hdigit (by decide)
  have hhead : ds.head? = some b := by rw [hb]; rfl
  constructor
  · simp [scanInt, hhead, h45, h43, hall, hne]
  · simp [scanInt, hall, hne]

/-- **A number that was cut off** is not read, or is at most a tenth of what it was. -/
theorem scanInt_cut {z : Int} {k : Nat} (hk : k < (decimalInt z).length) :
    scanInt ((decimalInt z).take k) = none ∨
      ∃ v : Int, 10 * v.natAbs ≤ z.natAbs ∧ scanInt ((decimalInt z).take k) = some (v, []) := by
  have hdigits : ∀ (n k : Nat) (b : UInt8), b ∈ (decimal n).take k → isDigit b = true :=
    fun n k b hb => isDigit_of_mem_decimal (List.mem_of_mem_take hb)
  by_cases hz : z < 0
  · have htext : decimalInt z = 45 :: decimal z.natAbs := if_pos hz
    rw [htext] at hk ⊢
    cases k with
    | zero => exact Or.inl rfl
    | succ k =>
        rw [List.take_succ_cons]
        have hlt : k < (decimal z.natAbs).length := by simpa using hk
        have hle := digitsValue_take hlt
        by_cases hnil : (decimal z.natAbs).take k = []
        · exact Or.inl (by rw [hnil]; rfl)
        · exact Or.inr ⟨_, by omega, (scanInt_block hnil (hdigits _ k)).2⟩
  · have htext : decimalInt z = decimal z.natAbs := if_neg hz
    rw [htext] at hk ⊢
    have hle := digitsValue_take hk
    by_cases hnil : (decimal z.natAbs).take k = []
    · exact Or.inl (by rw [hnil]; rfl)
    · exact Or.inr ⟨_, by omega, (scanInt_block hnil (hdigits _ k)).1⟩

/-! ### Fields -/

theorem head_take_space (xs : Bytes) (k : Nat) : ∀ b, ((32 :: xs : Bytes).take k).head? = some b → b = 32 := by
  intro b hb
  cases k with
  | zero => cases hb
  | succ k => exact (Option.some.inj hb).symm

/-- Nothing is stored for a field behind the end. -/
theorem sscanf_end_s (width : Nat) (fmt : List Directive) : sscanf (.ws :: .s width :: fmt) [] = [] := by
  simp [sscanf]

theorem sscanf_end_d (fmt : List Directive) : sscanf (.ws :: .d :: fmt) [] = [] := by
  simp [sscanf, scanInt]

private theorem dropWhile_cut {xs : Bytes} (h : ∀ b ∈ xs, isSpace b = false) (k : Nat) :
    ((32 :: xs : Bytes).take k).dropWhile isSpace = xs.take (k - 1) := by
  cases k with
  | zero => rfl
  | succ k =>
      rw [List.take_succ_cons, List.dropWhile_cons_of_pos (by decide), Nat.add_sub_cancel]
      apply dropWhile_isSpace_of_head
      intro b hb
      exact h b (List.mem_of_mem_take (List.mem_of_head? hb))

/-- A string that `%Ns` reads whole. -/
structure Word (width : Nat) (tok : Bytes) : Prop where
  nonempty : tok ≠ []
  space : ∀ b ∈ tok, isSpace b = false
  length : tok.length ≤ width

theorem Word.head {width : Nat} {tok : Bytes} (h : Word width tok) (rest : Bytes) :
    ∀ b, (tok ++ rest).head? = some b → isSpace b = false := by
  intro b hb
  obtain ⟨c, cs, rfl⟩ := List.exists_cons_of_ne_nil h.nonempty
  simp only [List.cons_append, List.head?_cons, Option.some.injEq] at hb
  exact hb ▸ h.space c List.mem_cons_self

/-- **A string field that was cut off**: nothing is read, or its first bytes. -/
theorem sscanf_cut_s {width : Nat} {tok : Bytes} (h : Word width tok) {fmt : List Directive}
    (hend : sscanf fmt [] = []) (k : Nat) :
    sscanf (.ws :: .s width :: fmt) ((32 :: tok : Bytes).take k) =
      if tok.take (k - 1) = [] then [] else [.str (tok.take (k - 1))] := by
  have hpart : ∀ b ∈ tok.take (k - 1), isSpace b = false := fun b hb => h.space b (List.mem_of_mem_take hb)
  have hshort : (tok.take (k - 1)).length ≤ width := Nat.le_trans (List.length_take_le' _ _) h.length
  rw [sscanf, dropWhile_cut h.space]
  split
  · rename_i hnil
    rw [hnil]
    simp [sscanf]
  · rename_i hne
    have hscan : sscanf (.s width :: fmt) (tok.take (k - 1) ++ []) = .str (tok.take (k - 1)) :: sscanf fmt [] :=
      sscanf_s fmt hne hpart hshort (by simp)
    rwa [List.append_nil, hend] at hscan

/-- **A number field that was cut off**: nothing is read, or at most a tenth. -/
theorem sscanf_cut_d (z : Int) {fmt : List Directive} (hend : sscanf fmt [] = []) {k : Nat}
    (hk : k < (32 :: decimalInt z : Bytes).length) :
    ∃ fs : List Field, sscanf (.ws :: .d :: fmt) ((32 :: decimalInt z : Bytes).take k) = fs ∧
      (fs = [] ∨ ∃ v : Int, fs = [.int v] ∧ 10 * v.natAbs ≤ z.natAbs) := by
  refine ⟨_, rfl, ?_⟩
  have hspace : ∀ b ∈ decimalInt z, isSpace b = false := fun b hb => not_isSpace_of_mem_decimalInt hb
  have hdrop : ((decimalInt z).take (k - 1)).dropWhile isSpace = (decimalInt z).take (k - 1) := by
    apply dropWhile_isSpace_of_head
    intro b hb
    exact hspace b (List.mem_of_mem_take (List.mem_of_head? hb))
  rw [sscanf, dropWhile_cut hspace, sscanf, hdrop]
  have hne : (decimalInt z).length ≠ 0 := by simpa using decimalInt_ne_nil z
  have hlt : k - 1 < (decimalInt z).length := by
    rw [List.length_cons] at hk
    omega
  rcases scanInt_cut hlt with hnone | ⟨v, hv, hsome⟩
  · exact Or.inl (by rw [hnone])
  · exact Or.inr ⟨v, by simp only [hsome, hend], hv⟩

/-- `%Ns` on a text that is not blank stores the first bytes of its first field. -/
theorem sscanf_word {width : Nat} (hwidth : 0 < width) (fmt : List Directive) {xs : Bytes}
    (h : ∃ b ∈ xs, isSpace b = false) :
    ∃ tok fs, sscanf (.ws :: .s width :: fmt) xs = .str tok :: fs ∧ Word width tok ∧ ∀ b ∈ tok, b ∈ xs := by
  rw [sscanf]
  rcases fields_cases (xs.dropWhile isSpace) with ⟨-, hnone⟩ | ⟨f, rest, hys, hne, hf, hrest, -⟩
  · obtain ⟨b, hb, hspace⟩ := h
    rw [fields_dropWhile] at hnone
    rcases fields_cases xs with ⟨hblank, -⟩ | ⟨f, rest, -, -, -, -, hfields⟩
    · have hall := List.dropWhile_eq_nil_iff.mp hblank b hb
      rw [hspace] at hall
      cases hall
    · rw [hnone] at hfields
      cases hfields
  · have htake : (f ++ rest).takeWhile (fun b => !isSpace b) = f := by
      rw [List.takeWhile_append_of_pos (by simpa using hf)]
      cases rest with
      | nil => simp
      | cons b rest => simp [hrest b rfl]
    have htok : f.take width ≠ [] := by
      simp only [ne_eq, List.take_eq_nil_iff, not_or]
      exact ⟨by omega, hne⟩
    refine ⟨f.take width, sscanf fmt ((f ++ rest).drop (f.take width).length), ?_, ⟨htok, ?_, ?_⟩, ?_⟩
    · simp only [sscanf, hys, htake, if_neg htok]
    · exact fun b hb => hf b (List.mem_of_mem_take hb)
    · exact List.length_take_le _ _
    · intro b hb
      have hmem : b ∈ (xs.dropWhile isSpace).dropWhile isSpace := by
        rw [hys]
        exact List.mem_append_left _ (List.mem_of_mem_take hb)
      exact (List.dropWhile_sublist _).subset ((List.dropWhile_sublist _).subset hmem)

end CText

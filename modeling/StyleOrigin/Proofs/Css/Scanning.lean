import StyleOrigin.Proofs.Css.Leaves

/-! # What scans bring

Reading starts from a text without U+0000 and with one form of line ends. What the scans of names,
strings, addresses, comments and code point ranges bring from such a text can be written again.

* `isClean_of_mem_cleaned`, `cleaned_eq_self`: the texts that reading starts from.
* `nul_notMem_scanName`, `nul_notMem_scanString`, `nul_notMem_scanUrl`: no scan brings U+0000.
* `sound_scanComment`, `scanUnicodeRange_lt`: comments and code point ranges.
* `startsLikeNumeral_scanName`: a name that is no identifier looks like a numeral.
-/
set_option autoImplicit false

namespace StyleOrigin.Css

/-! ## Clean texts -/

theorem mem_unifyLineEnds {text : Text} {c : Char} (h : c ∈ Text.unifyLineEnds text) :
    c ≠ '\r' ∧ (c = '\n' ∨ c ∈ text) := by
  induction text using Text.unifyLineEnds.induct with
  | case1 => exact absurd h (by simp [Text.unifyLineEnds])
  | case2 cs ih =>
    obtain rfl | h := List.mem_cons.mp h
    · exact ⟨by decide, .inl rfl⟩
    · exact ⟨(ih h).1, (ih h).2.imp_right fun hmem =>
        List.mem_cons_of_mem _ (List.mem_cons_of_mem _ hmem)⟩
  | case3 d ds hne ih =>
    rw [Text.unifyLineEnds.eq_3 _ _ hne] at h
    obtain rfl | h := List.mem_cons.mp h
    · by_cases hd : d = '\r' <;> simp [hd]
    · exact ⟨(ih h).1, (ih h).2.imp_right (List.mem_cons_of_mem _)⟩

theorem unifyLineEnds_eq_self {text : Text} (h : '\r' ∉ text) : Text.unifyLineEnds text = text := by
  induction text using Text.unifyLineEnds.induct with
  | case1 => rfl
  | case2 cs ih => exact absurd List.mem_cons_self h
  | case3 d ds hne ih =>
    have hd : d ≠ '\r' := fun hd => h (hd ▸ List.mem_cons_self)
    rw [Text.unifyLineEnds.eq_3 _ _ hne, if_neg hd, ih fun hmem => h (List.mem_cons_of_mem _ hmem)]

theorem isClean_iff {c : Char} : isClean c = true ↔ c ≠ '\x00' ∧ c ≠ '\r' ∧ c ≠ '\x0C' := by
  simp [isClean, and_assoc]

theorem isClean_of_mem_cleaned {source : Text} {c : Char} (h : c ∈ cleaned source) :
    isClean c = true := by
  obtain ⟨d, hd, rfl⟩ := List.mem_map.mp h
  obtain ⟨hreturn, hmem⟩ := mem_unifyLineEnds hd
  have hnul : d ≠ '\x00' := by
    rintro rfl
    obtain hline | hmem := hmem
    · exact absurd hline (by decide)
    · obtain ⟨e, _, he⟩ := List.mem_map.mp hmem
      split at he
      · exact absurd he (by decide)
      · rename_i hne
        exact hne he
  rw [isClean_iff]
  split
  · exact ⟨by decide, by decide, by decide⟩
  · rename_i hfeed
    exact ⟨hnul, hreturn, hfeed⟩

theorem cleaned_eq_self {text : Text} (h : ∀ c ∈ text, isClean c = true) : cleaned text = text := by
  have hnul : (text.map fun c => if c = '\x00' then '\uFFFD' else c) = text :=
    (List.map_congr_left fun c hc => if_neg (isClean_iff.mp (h c hc)).1).trans (List.map_id _)
  have hreturn : '\r' ∉ text := fun hmem => (isClean_iff.mp (h _ hmem)).2.1 rfl
  rw [cleaned, hnul, unifyLineEnds_eq_self hreturn]
  exact (List.map_congr_left fun c hc => if_neg (isClean_iff.mp (h c hc)).2.2).trans (List.map_id _)

/-! ## Escapes and names -/

theorem notMem_cons {α : Type} {x y : α} {xs : List α} : x ∉ y :: xs ↔ x ≠ y ∧ x ∉ xs := by
  simp

theorem escapedChar_ne_nul (code : Nat) : escapedChar code ≠ '\x00' := by
  unfold escapedChar
  split
  · decide
  · rename_i h
    simp only [Bool.or_eq_true, decide_eq_true_eq, Bool.and_eq_true, not_or, not_and] at h
    have hvalid : code.isValidChar := by
      unfold Nat.isValidChar
      omega
    have hcode : (Char.ofNat code).toNat = code := by
      rw [Char.ofNat, dif_pos hvalid]
      rfl
    intro heq
    rw [heq] at hcode
    exact h.1.1 hcode.symm

theorem scanEscape_ne_nul {text : Text} (h : '\x00' ∉ text) : (scanEscape text).1 ≠ '\x00' := by
  simp only [scanEscape]
  split
  · exact escapedChar_ne_nul _
  · exact fun hnul => h (List.mem_cons.mpr (.inl hnul.symm))
  · decide

theorem nul_notMem_scanNameFrom {text : Text} (h : '\x00' ∉ text) (skip : Nat) :
    '\x00' ∉ (scanNameFrom skip text).1 := by
  induction text generalizing skip with
  | nil => cases skip <;> simp [scanNameFrom]
  | cons c cs ih =>
    obtain ⟨hc, hcs⟩ := notMem_cons.mp h
    cases skip with
    | succ skip => exact ih hcs skip
    | zero =>
      rw [scanNameFrom]
      split
      · exact notMem_cons.mpr ⟨hc, ih hcs 0⟩
      · split
        · exact notMem_cons.mpr ⟨(scanEscape_ne_nul hcs).symm, ih hcs _⟩
        · simp

theorem nul_notMem_scanName {text : Text} (h : '\x00' ∉ text) : '\x00' ∉ (scanName text).1 :=
  nul_notMem_scanNameFrom h 0

theorem scanName_cons_of_isNameChar {c : Char} (h : isNameChar c = true) (cs : Text) :
    (scanName (c :: cs)).1 = c :: (scanName cs).1 := by
  rw [scanName, scanNameFrom, if_pos h]
  rfl

theorem scanName_ne_nil {c : Char} {cs : Text}
    (h : isNameChar c = true ∨ startsEscape (c :: cs) = true) : (scanName (c :: cs)).1 ≠ [] := by
  rw [scanName, scanNameFrom]
  split
  · simp [Prod.map]
  · rename_i hname
    rw [if_pos (h.resolve_left hname)]
    simp [Prod.map]

theorem scanName_ne_nil_of_startsIdent {text : Text} (h : startsIdent text = true) :
    (scanName text).1 ≠ [] := by
  cases text with
  | nil => exact absurd h (by decide)
  | cons c cs => exact scanName_ne_nil (head_of_startsIdent h)

theorem isDigit_of_isNameChar {c : Char} (h : isNameChar c = true) (hstart : isNameStart c = false)
    (hhyphen : c ≠ '-') : c.isDigit = true := by
  simpa [isNameChar, hstart, hhyphen] using h

/-- A name that starts with a name character but is no identifier looks like a numeral. -/
theorem startsLikeNumeral_scanName {text : Text} (hident : startsIdent text = false)
    (hname : continuesName text = true) : startsLikeNumeral (scanName text).1 = true := by
  cases text with
  | nil => exact absurd hname (by decide)
  | cons c cs =>
    obtain ⟨hstart, hescape⟩ := not_starts_of_not_startsIdent hident
    have hc : isNameChar c = true := by simpa [continuesName, hescape] using hname
    rw [scanName_cons_of_isNameChar hc]
    by_cases hhyphen : c = '-'
    · subst hhyphen
      cases cs with
      | nil => rfl
      | cons d ds =>
        obtain ⟨hdstart, hdescape, hdhyphen⟩ := not_starts_behind_hyphen hident
        by_cases hd : isNameChar d = true
        · rw [scanName_cons_of_isNameChar hd]
          exact isDigit_of_isNameChar hd hdstart hdhyphen
        · have hempty : (scanName (d :: ds)).1 = [] := by
            rw [scanName, scanNameFrom, if_neg hd, if_neg (by simp [hdescape])]
          rw [hempty]
          rfl
    · have hdigit := isDigit_of_isNameChar hc hstart hhyphen
      unfold startsLikeNumeral
      split
      · rfl
      · rename_i heq
        exact absurd (List.cons.inj heq).1 hhyphen
      · rename_i heq
        rw [← (List.cons.inj heq).1]
        exact hdigit
      · rename_i heq
        exact absurd heq (by simp)

/-! ## Strings and addresses -/

theorem nul_notMem_scanStringFrom {text : Text} (h : '\x00' ∉ text) (mark : Char) (skip : Nat) :
    '\x00' ∉ (scanStringFrom mark skip text).value := by
  induction text generalizing skip with
  | nil => cases skip <;> simp [scanStringFrom]
  | cons c cs ih =>
    obtain ⟨hc, hcs⟩ := notMem_cons.mp h
    cases skip with
    | succ skip => exact ih hcs skip
    | zero =>
      rw [scanStringFrom]
      split
      · simp
      split
      · simp
      split
      · split
        · simp
        · exact ih hcs 1
        · exact notMem_cons.mpr ⟨(scanEscape_ne_nul hcs).symm, ih hcs _⟩
      · exact notMem_cons.mpr ⟨hc, ih hcs 0⟩

theorem nul_notMem_scanString {text : Text} (h : '\x00' ∉ text) (mark : Char) :
    '\x00' ∉ (scanString mark text).value :=
  nul_notMem_scanStringFrom h mark 0

theorem nul_notMem_scanUrlFrom {text : Text} (h : '\x00' ∉ text) (skip : Nat) :
    '\x00' ∉ (scanUrlFrom skip text).value := by
  induction text generalizing skip with
  | nil => cases skip <;> simp [scanUrlFrom]
  | cons c cs ih =>
    obtain ⟨hc, hcs⟩ := notMem_cons.mp h
    cases skip with
    | succ skip => exact ih hcs skip
    | zero =>
      rw [scanUrlFrom]
      split
      · simp
      split
      · simp only
        split
        · simp
        · split <;> simp
      split
      · exact notMem_cons.mpr ⟨(scanEscape_ne_nul hcs).symm, ih hcs _⟩
      split
      · simp
      · exact notMem_cons.mpr ⟨hc, ih hcs 0⟩

theorem nul_notMem_scanUrl {text : Text} (h : '\x00' ∉ text) : '\x00' ∉ (scanUrl text).value :=
  nul_notMem_scanUrlFrom (fun hmem => h (List.mem_of_mem_drop hmem)) 0

/-! ## Comments -/

theorem head_scanComment {text rest : Text} {c : Char} (h : (scanComment text).1 = c :: rest) :
    text.head? = some c := by
  unfold scanComment at h
  split at h
  · exact absurd h (by simp)
  · exact absurd h (by simp)
  · exact congrArg some (List.cons.inj h).1

/-- A comment holds characters of the text, and nothing in it ends a comment. -/
theorem sound_scanComment (text : Text) :
    ¬ ['*', '/'] <:+: (scanComment text).1 ∧ ∀ c ∈ (scanComment text).1, c ∈ text := by
  induction text using scanComment.induct with
  | case1 => simp [scanComment]
  | case2 cs => simp [scanComment]
  | case3 c cs hne ih =>
    have hcons : (scanComment (c :: cs)).1 = c :: (scanComment cs).1 := by
      rw [scanComment.eq_3 _ _ hne]
      rfl
    rw [hcons]
    constructor
    · intro hwithin
      obtain hbegins | hwithin := List.infix_cons_iff.mp hwithin
      · obtain ⟨rfl, hslash⟩ := List.cons_prefix_cons.mp hbegins
        obtain ⟨rest, hrest⟩ := hslash
        have hhead := head_scanComment hrest.symm
        cases cs with
        | nil => exact absurd hhead (by simp)
        | cons d ds =>
          obtain rfl : d = '/' := Option.some.inj hhead
          exact hne _ rfl rfl
      · exact ih.1 hwithin
    · intro d hd
      obtain rfl | hd := List.mem_cons.mp hd
      · exact List.mem_cons_self
      · exact List.mem_cons_of_mem _ (ih.2 d hd)

/-! ## Code point ranges -/

theorem hexDigitValue_lt {c : Char} (h : isHexDigit c = true) : hexDigitValue c < 16 := by
  simp only [isHexDigit, Bool.or_eq_true, Bool.and_eq_true, decide_eq_true_eq, Char.le_def,
    UInt32.le_iff_toNat_le] at h
  unfold hexDigitValue
  rcases h with (hdigit | hlower) | hupper
  · have hvalue : 48 ≤ c.toNat ∧ c.toNat ≤ 57 := by
      simpa [Char.isDigit, UInt32.le_iff_toNat_le] using hdigit
    rw [if_pos hdigit, show '0'.toNat = 48 from rfl]
    omega
  · have hvalue : 97 ≤ c.toNat ∧ c.toNat ≤ 102 := by simpa using hlower
    have hle : 'a' ≤ c := UInt32.le_iff_toNat_le.mpr hlower.1
    have hdigit : ¬ c.isDigit = true := by
      simp [Char.isDigit, UInt32.le_iff_toNat_le]
      omega
    rw [if_neg hdigit, if_pos hle, show 'a'.toNat = 97 from rfl]
    omega
  · have hvalue : 65 ≤ c.toNat ∧ c.toNat ≤ 70 := by simpa using hupper
    have hle : ¬ 'a' ≤ c := by
      simp [Char.le_def, UInt32.le_iff_toNat_le]
      omega
    have hdigit : ¬ c.isDigit = true := by
      simp [Char.isDigit, UInt32.le_iff_toNat_le]
      omega
    rw [if_neg hdigit, if_neg hle, show 'A'.toNat = 65 from rfl]
    omega

theorem hexValue_lt {digits : Text} (h : ∀ d ∈ digits, isHexDigit d = true) :
    hexValue digits < 16 ^ digits.length := by
  have hfold : ∀ start, digits.foldl (fun value digit => value * 16 + hexDigitValue digit) start <
      (start + 1) * 16 ^ digits.length := by
    induction digits with
    | nil => simp
    | cons d ds ih =>
      intro start
      have hd := hexDigitValue_lt (h d List.mem_cons_self)
      have ih := ih (fun e he => h e (List.mem_cons_of_mem d he)) (start * 16 + hexDigitValue d)
      have hle : (start * 16 + hexDigitValue d + 1) * 16 ^ ds.length ≤
          (start + 1) * 16 * 16 ^ ds.length := Nat.mul_le_mul_right _ (by omega)
      rw [List.foldl_cons, List.length_cons, Nat.pow_succ, Nat.mul_comm (16 ^ ds.length),
        ← Nat.mul_assoc]
      omega
  have hzero := hfold 0
  rwa [Nat.zero_add, Nat.one_mul] at hzero

theorem hexValue_lt_of_length_le {digits : Text} (h : ∀ d ∈ digits, isHexDigit d = true)
    (hlength : digits.length ≤ 6) : hexValue digits < 16 ^ 6 :=
  Nat.lt_of_lt_of_le (hexValue_lt h) (Nat.pow_le_pow_right (by decide) hlength)

theorem isHexDigit_takeWhile {text : Text} {n : Nat} {d : Char}
    (h : d ∈ (text.take n).takeWhile isHexDigit) : isHexDigit d = true :=
  List.all_eq_true.mp List.all_takeWhile d h

theorem length_takeWhile_take_le {α : Type} (p : α → Bool) (xs : List α) (n : Nat) :
    ((xs.take n).takeWhile p).length ≤ n :=
  Nat.le_trans (List.takeWhile_prefix p).length_le (List.length_take_le n xs)

theorem hexValue_fill_lt {digits marks : Text} {digit : Char} (h : ∀ d ∈ digits, isHexDigit d = true)
    (hdigit : isHexDigit digit = true) (hlength : digits.length + marks.length ≤ 6) :
    hexValue (digits ++ marks.map fun _ => digit) < 16 ^ 6 := by
  refine hexValue_lt_of_length_le (fun d hd => ?_) (by simpa using hlength)
  obtain hd | hd := List.mem_append.mp hd
  · exact h d hd
  · obtain ⟨_, _, rfl⟩ := List.mem_map.mp hd
    exact hdigit

theorem scanUnicodeRange_lt (text : Text) :
    (scanUnicodeRange text).1 < 16 ^ 6 ∧ (scanUnicodeRange text).2.1 < 16 ^ 6 := by
  have hdigits := length_takeWhile_take_le isHexDigit text 6
  have hfirst : hexValue ((text.take 6).takeWhile isHexDigit) < 16 ^ 6 :=
    hexValue_lt_of_length_le (fun d => isHexDigit_takeWhile) hdigits
  simp only [scanUnicodeRange]
  split
  · have hmarks := length_takeWhile_take_le (· == '?')
      (text.drop ((text.take 6).takeWhile isHexDigit).length)
      (6 - ((text.take 6).takeWhile isHexDigit).length)
    have hlength : ((text.take 6).takeWhile isHexDigit).length +
        (((text.drop ((text.take 6).takeWhile isHexDigit).length).take
          (6 - ((text.take 6).takeWhile isHexDigit).length)).takeWhile (· == '?')).length ≤ 6 := by
      omega
    exact ⟨hexValue_fill_lt (fun d => isHexDigit_takeWhile) (by decide) hlength,
      hexValue_fill_lt (fun d => isHexDigit_takeWhile) (by decide) hlength⟩
  · split
    · split
      · exact ⟨hfirst, hfirst⟩
      · exact ⟨hfirst, hexValue_lt_of_length_le (fun d => isHexDigit_takeWhile)
          (length_takeWhile_take_le isHexDigit _ 6)⟩
    · exact ⟨hfirst, hfirst⟩

end StyleOrigin.Css

import Mathlib.Computability.Language

/-!
# `grep`

The matcher accepts a text exactly when a part of it is in the language of the pattern
(`matchText_iff`). A pattern is read from the left: a character before `*` is repeated, `$` at the
end and `^` at the beginning are anchors, and any other character stands for itself, except `.`.

The loop of `grep` keeps the part of a line that a read leaves at the end of the buffer, but drops
it if the buffer has no newline at all (`dropsLine`). What it writes is right for every pattern
exactly when no such read comes before a newline (`grep_iff`).

Scope. A string is the list of its bytes before the NUL, and the buffer the list of its `m` bytes,
none of which is a NUL.
`grep` is given what the calls of `read` return, up to the first that returns 0.
-/

set_option autoImplicit false

namespace EasyKernels.Xv6.Grep

open List

open scoped Computability

def star : UInt8 := 42
def dollar : UInt8 := 36
def dot : UInt8 := 46
def caret : UInt8 := 94
def newline : UInt8 := 10

/-! ### The matcher -/

/-- The loop of `matchstar`; `here` is `matchhere` of the pattern after the star. -/
def matchstar (c : UInt8) (here : List UInt8 → Bool) : List UInt8 → Bool
  | [] => here []
  | a :: text => here (a :: text) || ((a = c || c = dot) && matchstar c here text)

/-- The last test of `matchhere`. -/
def matchone (c : UInt8) (here : List UInt8 → Bool) : List UInt8 → Bool
  | [] => false
  | a :: text => (c = dot || c = a) && here text

def matchhere : List UInt8 → List UInt8 → Bool
  | [] => fun _ ↦ true
  | [c] => if c = dollar then List.isEmpty else matchone c (matchhere [])
  | c :: d :: re =>
    if d = star then matchstar c (matchhere re) else matchone c (matchhere (d :: re))

/-- The loop of `match`. -/
def matchfrom (re : List UInt8) : List UInt8 → Bool
  | [] => matchhere re []
  | a :: text => matchhere re (a :: text) || matchfrom re text

/-- `match`. -/
def matchText (re text : List UInt8) : Bool :=
  if re.head? = some caret then matchhere re.tail text else matchfrom re text

/-! ### What a pattern means -/

inductive Item
  | one (c : UInt8)
  | star (c : UInt8)

/-- The items of a pattern, and whether it ends with an anchor. -/
def items : List UInt8 → List Item × Bool
  | [] => ([], false)
  | [c] => if c = dollar then ([], true) else ([.one c], false)
  | c :: d :: re =>
    if d = star then (.star c :: (items re).1, (items re).2)
    else (.one c :: (items (d :: re)).1, (items (d :: re)).2)

/-- One character that `c` stands for. -/
def letter (c : UInt8) : Language UInt8 := {s | ∃ a, s = [a] ∧ (c = dot ∨ c = a)}

def Item.lang : Item → Language UInt8
  | .one c => letter c
  | .star c => (letter c)∗

/-- The items of `re` match the beginning of the text, or all of it. -/
def Here (re text : List UInt8) : Prop :=
  ∃ s after, text = s ++ after ∧ s ∈ ((items re).1.map Item.lang).prod ∧
    ((items re).2 = true → after = [])

/-- A part of the text matches, the first part if there is an anchor. -/
def Matches (re text : List UInt8) : Prop :=
  if re.head? = some caret then Here re.tail text
  else ∃ before rest, text = before ++ rest ∧ Here re rest

theorem mem_letter_kstar {c : UInt8} {s : List UInt8} :
    s ∈ (letter c)∗ ↔ ∀ a ∈ s, c = dot ∨ c = a := by
  constructor
  · rintro ⟨parts, rfl, hparts⟩ a ha
    obtain ⟨part, hpart, ha⟩ := mem_flatten.mp ha
    obtain ⟨b, rfl, hb⟩ := hparts part hpart
    obtain rfl := mem_singleton.mp ha
    exact hb
  · intro hs
    refine ⟨s.map ([·]), by rw [← flatMap_def, flatMap_singleton'], fun part hpart ↦ ?_⟩
    obtain ⟨a, ha, rfl⟩ := mem_map.mp hpart
    exact ⟨a, rfl, hs a ha⟩

theorem matchstar_iff {c : UInt8} {here : List UInt8 → Bool} {text : List UInt8} :
    matchstar c here text = true ↔
      ∃ s rest, text = s ++ rest ∧ s ∈ (letter c)∗ ∧ here rest = true := by
  simp only [mem_letter_kstar]
  induction text with
  | nil => simp [matchstar]
  | cons a text ih =>
    rw [matchstar, Bool.or_eq_true, Bool.and_eq_true, ih]
    constructor
    · rintro (hhere | ⟨hc, s, rest, rfl, hs, hrest⟩)
      · exact ⟨[], a :: text, rfl, by simp, hhere⟩
      · refine ⟨a :: s, rest, rfl, forall_mem_cons.mpr ⟨?_, hs⟩, hrest⟩
        simp only [Bool.or_eq_true, decide_eq_true_eq] at hc
        exact hc.symm.imp_right .symm
    · rintro ⟨s, rest, heq, hs, hrest⟩
      cases s with
      | nil => exact .inl (by rwa [heq])
      | cons b s =>
        obtain ⟨rfl, rfl⟩ := cons.inj heq
        obtain ⟨hb, hs⟩ := forall_mem_cons.mp hs
        refine .inr ⟨?_, s, rest, rfl, hs, hrest⟩
        simpa only [Bool.or_eq_true, decide_eq_true_eq] using hb.symm.imp_left .symm

theorem matchone_iff {c : UInt8} {here : List UInt8 → Bool} {text : List UInt8} :
    matchone c here text = true ↔
      ∃ s rest, text = s ++ rest ∧ s ∈ letter c ∧ here rest = true := by
  constructor
  · intro h
    cases text with
    | nil => cases h
    | cons a text =>
      rw [matchone, Bool.and_eq_true] at h
      exact ⟨[a], text, rfl, ⟨a, rfl, by simpa using h.1⟩, h.2⟩
  · rintro ⟨s, rest, rfl, ⟨a, rfl, ha⟩, hrest⟩
    rw [singleton_append, matchone, Bool.and_eq_true]
    exact ⟨by simpa using ha, hrest⟩

/-- An item before the others. -/
theorem here_cons {re text : List UInt8} (re' : List UInt8) (item : Item)
    (hitems : items re = (item :: (items re').1, (items re').2)) :
    Here re text ↔ ∃ s rest, text = s ++ rest ∧ s ∈ item.lang ∧ Here re' rest := by
  simp only [Here, hitems, map_cons, prod_cons, Language.mem_mul]
  constructor
  · rintro ⟨-, after, rfl, ⟨s, hs, u, hu, rfl⟩, hafter⟩
    exact ⟨s, u ++ after, append_assoc .., hs, u, after, rfl, hu, hafter⟩
  · rintro ⟨s, -, rfl, hs, u, after, rfl, hu, hafter⟩
    exact ⟨s ++ u, after, (append_assoc ..).symm, ⟨s, hs, u, hu, rfl⟩, hafter⟩

theorem here_nil (text : List UInt8) : Here [] text :=
  ⟨[], text, rfl, by simp [items, Language.mem_one], by simp [items]⟩

theorem matchhere_iff (re text : List UInt8) : matchhere re text = true ↔ Here re text := by
  induction re using matchhere.induct generalizing text with
  | case1 => exact iff_of_true rfl (here_nil text)
  | case2 =>
    rw [matchhere, if_pos rfl]
    simp [Here, items, Language.mem_one]
  | case3 c hc =>
    rw [matchhere, if_neg hc, matchone_iff, here_cons [] (.one c)]
    · simp only [matchhere, here_nil, Item.lang]
    · simp [items, hc]
  | case4 c re ih =>
    rw [matchhere, if_pos rfl, matchstar_iff, here_cons re (.star c)]
    · simp only [ih, Item.lang]
    · rw [items, if_pos rfl]
  | case5 c d re hd ih =>
    rw [matchhere, if_neg hd, matchone_iff, here_cons (d :: re) (.one c)]
    · simp only [ih, Item.lang]
    · rw [items, if_neg hd]

theorem matchfrom_iff (re text : List UInt8) :
    matchfrom re text = true ↔ ∃ before rest, text = before ++ rest ∧ Here re rest := by
  induction text with
  | nil => simp [matchfrom, matchhere_iff]
  | cons a text ih =>
    rw [matchfrom, Bool.or_eq_true, matchhere_iff, ih]
    constructor
    · rintro (hhere | ⟨before, rest, rfl, hrest⟩)
      · exact ⟨[], a :: text, rfl, hhere⟩
      · exact ⟨a :: before, rest, rfl, hrest⟩
    · rintro ⟨before, rest, heq, hrest⟩
      cases before with
      | nil => exact .inl (by rwa [heq])
      | cons b before =>
        obtain ⟨-, rfl⟩ := cons.inj heq
        exact .inr ⟨before, rest, rfl, hrest⟩

/-- `match` returns 1 exactly when a part of the text matches. -/
theorem matchText_iff (re text : List UInt8) : matchText re text = true ↔ Matches re text := by
  rw [matchText, Matches]
  split_ifs
  · exact matchhere_iff re.tail text
  · exact matchfrom_iff re text

/-! ### The loop over the reads -/

/-- What the loop over the lines of the buffer writes; `line` is what it has passed since `p`. -/
def writeLines (pattern : List UInt8) : List UInt8 → List UInt8 → List UInt8
  | _, [] => []
  | line, c :: rest =>
    if c = newline then
      (if matchText pattern line then line ++ [newline] else []) ++ writeLines pattern [] rest
    else writeLines pattern (line ++ [c]) rest

/-- The bytes from `p` to the end of the buffer after that loop. -/
def remains : List UInt8 → List UInt8 → List UInt8
  | line, [] => line
  | line, c :: rest => if c = newline then remains [] rest else remains (line ++ [c]) rest

/-- What the next read finds in the buffer. -/
def kept (buf : List UInt8) : List UInt8 := if newline ∈ buf then remains [] buf else []

/-- The loop of `grep`, with `buf` in the buffer: what it writes. -/
def grep (pattern : List UInt8) : List UInt8 → List (List UInt8) → List UInt8
  | _, [] => []
  | buf, piece :: pieces =>
    writeLines pattern [] (buf ++ piece) ++ grep pattern (kept (buf ++ piece)) pieces

/-- A read returns at least a byte, and at most `sizeof(buf)-m-1`. -/
def Fits : List UInt8 → List (List UInt8) → Prop
  | _, [] => True
  | buf, piece :: pieces =>
    piece ≠ [] ∧ piece.length ≤ 1024 - buf.length - 1 ∧ Fits (kept (buf ++ piece)) pieces

instance decidableFits : ∀ buf pieces, Decidable (Fits buf pieces)
  | _, [] => isTrue trivial
  | buf, piece :: pieces =>
    have := decidableFits (kept (buf ++ piece)) pieces
    inferInstanceAs (Decidable (_ ∧ _ ∧ _))

/-- The lines of the input that match. -/
def matchingLines (pattern input : List UInt8) : List UInt8 :=
  ((input.splitOn newline).dropLast.filter (matchText pattern)).flatMap (· ++ [newline])

/-- Every read brings a newline, or no read after it does. -/
def Unbroken : List (List UInt8) → Prop
  | [] => True
  | piece :: pieces => (newline ∈ piece ∨ newline ∉ pieces.flatten) ∧ Unbroken pieces

section Lines

variable {pattern line buf rest : List UInt8}

theorem matchingLines_of_notMem (h : newline ∉ line) : matchingLines pattern line = [] := by
  simp [matchingLines, splitOn_eq_singleton h]

theorem matchingLines_append (h : newline ∉ line) :
    matchingLines pattern (line ++ newline :: rest) =
      (if matchText pattern line then line ++ [newline] else []) ++ matchingLines pattern rest := by
  have hsplit : (line ++ newline :: rest).splitOn newline = line :: rest.splitOn newline :=
    splitOnP_append_cons_of_forall_mem
      (fun _ hc ↦ beq_false_of_ne (ne_of_mem_of_not_mem hc h)) newline (beq_self_eq_true _) rest
  have hne : rest.splitOn newline ≠ [] := splitOnP_ne_nil _ rest
  rw [matchingLines, hsplit, dropLast_cons_of_ne_nil hne, filter_cons, matchingLines]
  split_ifs <;> simp

/-- The lines that end in the buffer are written, and the others remain. -/
theorem writeLines_append (h : newline ∉ line) :
    writeLines pattern line buf ++ matchingLines pattern (remains line buf ++ rest) =
      matchingLines pattern (line ++ buf ++ rest) ∧ newline ∉ remains line buf := by
  induction buf generalizing line with
  | nil => exact ⟨by simp [writeLines, remains], h⟩
  | cons c buf ih =>
    rcases eq_or_ne c newline with rfl | hc
    · obtain ⟨heq, hnot⟩ := ih not_mem_nil
      simp only [writeLines, remains, if_true]
      rw [append_assoc, heq, append_assoc line, cons_append, matchingLines_append h]
      exact ⟨rfl, hnot⟩
    · have hline : newline ∉ line ++ [c] := by simp [h, Ne.symm hc]
      simp only [writeLines, remains, if_neg hc]
      have := ih hline
      simpa using this

theorem writeLines_of_notMem (h : newline ∉ buf) : writeLines pattern line buf = [] := by
  induction buf generalizing line with
  | nil => rfl
  | cons c buf ih =>
    have hc : c ≠ newline := fun hc ↦ h (hc ▸ mem_cons_self)
    rw [writeLines, if_neg hc, ih (h ∘ mem_cons_of_mem c)]

theorem notMem_kept (buf : List UInt8) : newline ∉ kept buf := by
  rw [kept]
  split_ifs
  · exact (@writeLines_append [] [] buf [] not_mem_nil).2
  · exact not_mem_nil

/-- With the empty pattern, which every line matches, the beginning of a line is written too. -/
theorem matchingLines_nil (hline : newline ∉ line) (hrest : newline ∈ rest) :
    matchingLines [] (line ++ rest) = line ++ matchingLines [] rest := by
  obtain ⟨body, more, rfl, hbody⟩ := eq_append_cons_of_mem hrest
  have hall : ∀ text, matchText [] text = true := fun text ↦ by cases text <;> rfl
  rw [← append_assoc, matchingLines_append (not_mem_append hline hbody),
    matchingLines_append hbody, hall, hall]
  simp

end Lines

section Reads

variable {pieces : List (List UInt8)} {buf : List UInt8}

theorem grep_of_unbroken (h : Unbroken pieces) (hbuf : newline ∉ buf) (pattern : List UInt8) :
    grep pattern buf pieces = matchingLines pattern (buf ++ pieces.flatten) := by
  induction pieces generalizing buf with
  | nil => exact (matchingLines_of_notMem (by simpa using hbuf)).symm
  | cons piece pieces ih =>
    rw [grep, ih h.2 (notMem_kept _), flatten_cons, ← append_assoc]
    by_cases hpiece : newline ∈ piece
    · rw [kept, if_pos (mem_append_right _ hpiece)]
      exact (writeLines_append not_mem_nil).1
    · have hnone : newline ∉ buf ++ piece := by simp [hbuf, hpiece]
      have hlater := h.1.resolve_left hpiece
      rw [writeLines_of_notMem hnone, kept, if_neg hnone, nil_append, nil_append,
        matchingLines_of_notMem hlater, matchingLines_of_notMem (not_mem_append hnone hlater)]

/-- Without that some of what the empty pattern matches is missing. -/
theorem grep_lt_of_not_unbroken (h : ¬ Unbroken pieces) (hfits : Fits buf pieces)
    (hbuf : newline ∉ buf) :
    (grep [] buf pieces).length < (matchingLines [] (buf ++ pieces.flatten)).length := by
  induction pieces generalizing buf with
  | nil => exact absurd trivial h
  | cons piece pieces ih =>
    obtain ⟨hpos, -, hfits⟩ := hfits
    rw [grep, flatten_cons, ← append_assoc]
    by_cases hpiece : newline ∈ piece
    · have hrest := ih (fun hun ↦ h ⟨.inl hpiece, hun⟩) hfits (notMem_kept _)
      rw [kept, if_pos (mem_append_right _ hpiece)] at hrest ⊢
      rw [← nil_append (buf ++ piece), ← (writeLines_append not_mem_nil).1]
      simpa using hrest
    · have hnone : newline ∉ buf ++ piece := by simp [hbuf, hpiece]
      rw [kept, if_neg hnone] at hfits ⊢
      rw [writeLines_of_notMem hnone, nil_append]
      have hrest : (grep [] [] pieces).length ≤ (matchingLines [] pieces.flatten).length := by
        by_cases hun : Unbroken pieces
        · rw [grep_of_unbroken hun not_mem_nil, nil_append]
        · exact (ih hun hfits not_mem_nil).le
      by_cases hlater : newline ∈ pieces.flatten
      · rw [matchingLines_nil hnone hlater, length_append]
        have := length_pos_iff.mpr hpos
        rw [length_append]
        omega
      · have hlt := ih (fun hun ↦ h ⟨.inr hlater, hun⟩) hfits not_mem_nil
        rw [nil_append, matchingLines_of_notMem hlater] at hlt
        exact absurd hlt (Nat.not_lt_zero _)

end Reads

/-- `grep` writes the matching lines for every pattern exactly when the first read of a line that it
does not finish brings a newline. -/
theorem grep_iff (pieces : List (List UInt8)) (hfits : Fits [] pieces) :
    (∀ pattern, grep pattern [] pieces = matchingLines pattern pieces.flatten) ↔
      Unbroken pieces := by
  refine ⟨fun heq ↦ ?_, fun h ↦ grep_of_unbroken h not_mem_nil⟩
  by_contra h
  have hlt := grep_lt_of_not_unbroken h hfits not_mem_nil
  rw [heq, nil_append] at hlt
  exact hlt.false

/-- Two reads, the first of which ends with a newline. -/
theorem grep_iff_twoReads :
    Fits [] [[97, newline], [98, newline]] ∧
      ((∀ pattern, grep pattern [] [[97, newline], [98, newline]] =
        matchingLines pattern [97, newline, 98, newline]) ↔
        Unbroken [[97, newline], [98, newline]]) :=
  have hfits : Fits [] [[97, newline], [98, newline]] := by decide
  ⟨hfits, grep_iff _ hfits⟩

/-- The line `ab` read at once, and in two parts. -/
theorem dropsLine :
    Fits [] [[97, 98, newline]] ∧ Fits [] [[97], [98, newline]] ∧
      grep [97] [] [[97, 98, newline]] = [97, 98, newline] ∧
      grep [97] [] [[97], [98, newline]] = [] := by
  decide

end EasyKernels.Xv6.Grep

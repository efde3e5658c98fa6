import ServerlessTaint.Yaml.Cursor

/-!
# Reading positions in tidy texts

A tidy text has printable characters of ASCII, spaces and line feeds only. Reading a tidy part of a
text moves the cursor over it, and the place it comes to depends on that part alone (`Mark.past`).
-/

namespace ServerlessTaint.Yaml

open List

/-- A printable character of ASCII that is not a space. -/
def isInk (c : Char) : Bool := '!' ≤ c && c ≤ '~'

/-- A character that may stand inside a line. -/
def isInLine (c : Char) : Bool := c == ' ' || isInk c

/-- A space or a line feed. -/
def isGapChar (c : Char) : Bool := c == ' ' || c == '\n'

def InLine (cs : List Char) : Prop := ∀ c ∈ cs, isInLine c

/-- A text of lines that end in line feeds. -/
def Tidy (cs : List Char) : Prop := ∀ c ∈ cs, isInLine c ∨ c = '\n'

/-! ## Characters -/

section Characters

variable {c : Char} {d : Char}

theorem ne_of_isInk (h : isInk c) (hd : isInk d = false) : c ≠ d := by
  rintro rfl
  rw [h] at hd
  cases hd

theorem isBreak_of_isInk (h : isInk c) : isBreak c = false := by
  simp (disch := decide) [isBreak, ne_of_isInk h]

theorem isSpaceOrTab_of_isInk (h : isInk c) : isSpaceOrTab c = false := by
  simp (disch := decide) [isSpaceOrTab, ne_of_isInk h]

theorem endsWord_of_isInk (h : isInk c) : endsWord (some c) = false := by
  have hspace := isSpaceOrTab_of_isInk h
  simp_all [isSpaceOrTab, endsWord, endsField, endsLine, isBreak_of_isInk h]

theorem isBreak_of_isInLine (h : isInLine c) : isBreak c = false := by
  rcases Bool.or_eq_true_iff.1 h with h | h
  · obtain rfl := eq_of_beq h
    rfl
  · exact isBreak_of_isInk h

theorem isInLine_of_isInk (h : isInk c) : isInLine c := by simp [isInLine, h]

theorem ne_of_isInLine (h : isInLine c) (hd : isInLine d = false) : c ≠ d := by
  rintro rfl
  rw [h] at hd
  cases hd

theorem ne_of_tidy (h : isInLine c ∨ c = '\n') (hd : isInLine d = false) (hn : d ≠ '\n') : c ≠ d := by
  rcases h with h | rfl
  · exact ne_of_isInLine h hd
  · exact hn.symm

end Characters

@[simp] theorem tidy_nil : Tidy [] := nofun

variable {cs as bs : List Char}

@[simp] theorem tidy_cons {c : Char} :
    Tidy (c :: cs) ↔ (isInLine c ∨ c = '\n') ∧ Tidy cs := forall_mem_cons

@[simp] theorem tidy_append : Tidy (as ++ bs) ↔ Tidy as ∧ Tidy bs :=
  forall_mem_append

@[simp] theorem tidy_replicate {n : Nat} : Tidy (replicate n ' ') := by
  intro c hc
  obtain rfl := eq_of_mem_replicate hc
  exact .inl rfl

theorem InLine.tidy (h : InLine cs) : Tidy cs := fun c hc => .inl (h c hc)

theorem inLine_append : InLine (as ++ bs) ↔ InLine as ∧ InLine bs :=
  forall_mem_append

/-! ## Places -/

namespace Mark

/-- The place after the characters of a tidy text. -/
def past (m : Mark) (cs : List Char) : Mark := cs.foldl (fun m c => Cursor.markAfter m c none) m

@[simp] theorem past_nil (m : Mark) : m.past [] = m := rfl

@[simp] theorem past_past (m : Mark) (as bs : List Char) : (m.past as).past bs = m.past (as ++ bs) := by
  simp [past, foldl_append]

theorem past_newline (m : Mark) (cs : List Char) :
    m.past ('\n' :: cs) = (⟨m.index + 1, m.line + 1, 0⟩ : Mark).past cs := rfl

variable {cs : List Char}

theorem past_inLine (m : Mark) (h : InLine cs) : m.past cs = ⟨m.index + cs.length, m.line, m.column + cs.length⟩ := by
  induction cs generalizing m with
  | nil => rfl
  | cons c cs ih =>
    have hc := h c mem_cons_self
    have hstep : Cursor.markAfter m c none = ⟨m.index + 1, m.line, m.column + 1⟩ := by
      simp (disch := decide) [Cursor.markAfter, isBreak_of_isInLine hc, ne_of_isInLine hc]
    show past (Cursor.markAfter m c none) cs = _
    rw [hstep, ih _ fun d hd => h d (mem_cons_of_mem _ hd)]
    simp only [length_cons]
    congr 1 <;> omega

theorem inLine_replicate {n : Nat} : InLine (replicate n ' ') := by
  intro c hc
  obtain rfl := eq_of_mem_replicate hc
  rfl

theorem past_spaces (m : Mark) (n : Nat) : m.past (replicate n ' ') = ⟨m.index + n, m.line, m.column + n⟩ := by
  rw [past_inLine m inLine_replicate, length_replicate]

theorem index_past (m : Mark) (h : Tidy cs) : (m.past cs).index = m.index + cs.length := by
  induction cs generalizing m with
  | nil => rfl
  | cons c cs ih =>
    obtain ⟨hc, hcs⟩ := tidy_cons.1 h
    have hstep : (m.past [c]).index = m.index + 1 := by
      rcases hc with hc | rfl
      · rw [past_inLine m (by simpa [InLine] using hc)]
        rfl
      · rfl
    rw [← singleton_append, ← past_past, ih _ hcs, hstep]
    simp only [length_append, length_cons, length_nil]
    omega

theorem line_le_past (m : Mark) (h : Tidy cs) : m.line ≤ (m.past cs).line := by
  induction cs generalizing m with
  | nil => exact Nat.le_refl _
  | cons c cs ih =>
    obtain ⟨hc, hcs⟩ := tidy_cons.1 h
    have hstep : m.line ≤ (m.past [c]).line := by
      rcases hc with hc | rfl
      · exact Nat.le_of_eq (by rw [past_inLine m (by simpa [InLine] using hc)])
      · exact Nat.le_succ _
    rw [← singleton_append, ← past_past]
    exact Nat.le_trans hstep (ih _ hcs)

theorem line_lt_past_newline (m : Mark) (h : Tidy cs) : m.line < (m.past ('\n' :: cs)).line := by
  rw [past_newline]
  exact line_le_past ⟨m.index + 1, m.line + 1, 0⟩ h

end Mark

/-! ## Cursors -/

namespace Cursor

variable {m : Mark} {cs : List Char} {rest : List Char}

theorem step_cons {c : Char} (h : isInLine c ∨ c = '\n') : step ⟨c :: rest, m⟩ = ⟨rest, m.past [c]⟩ := by
  have hcr := ne_of_tidy (d := '\r') h rfl (by decide)
  simp [step, Mark.past, markAfter, hcr]

theorem advance_append (h : Tidy cs) : advance cs.length ⟨cs ++ rest, m⟩ = ⟨rest, m.past cs⟩ := by
  induction cs generalizing m with
  | nil => rfl
  | cons c cs ih =>
    obtain ⟨hc, hcs⟩ := tidy_cons.1 h
    show advance cs.length (step ⟨c :: (cs ++ rest), m⟩) = _
    rw [step_cons hc, ih hcs, Mark.past_past]
    rfl

/-- A run of characters of a kind that ends before the rest. -/
theorem takeWhile_append {p : Char → Bool} {rest : List Char} (h : Tidy cs) (hp : ∀ c ∈ cs, p c)
    (hrest : ∀ c ∈ rest.head?, p c = false) : takeWhile p ⟨cs ++ rest, m⟩ = (cs, ⟨rest, m.past cs⟩) := by
  have htaken : (cs ++ rest).takeWhile p = cs := by
    rw [takeWhile_append_of_pos hp]
    cases rest with
    | nil => simp
    | cons c rest => simp [hrest c rfl]
  simp [takeWhile, htaken, advance_append h]

theorem skipSpaces_append {n : Nat} {rest : List Char} (hrest : ∀ c ∈ rest.head?, c ≠ ' ') :
    skipSpaces ⟨replicate n ' ' ++ rest, m⟩ = ⟨rest, m.past (replicate n ' ')⟩ := by
  rw [skipSpaces, skipWhile, takeWhile_append tidy_replicate]
  · intro c hc
    exact beq_iff_eq.2 (eq_of_mem_replicate hc)
  · intro c hc
    exact beq_eq_false_iff_ne.2 (hrest c hc)

@[simp] theorem lineBreak?_newline {rest : List Char} :
    lineBreak? ⟨'\n' :: rest, m⟩ = some ('\n', ⟨rest, m.past ['\n']⟩) := rfl

@[simp] theorem lineBreak?_nil : lineBreak? ⟨[], m⟩ = none := rfl

theorem lineBreak?_of_isInLine {c : Char} (h : isInLine c) : lineBreak? ⟨c :: rest, m⟩ = none := by
  have h1 := ne_of_isInLine (d := '\r') h rfl
  have h2 := ne_of_isInLine (d := '\u2028') h rfl
  have h3 := ne_of_isInLine (d := '\u2029') h rfl
  simp [lineBreak?, isBreak_of_isInLine h, h1, h2, h3]

end Cursor

end ServerlessTaint.Yaml

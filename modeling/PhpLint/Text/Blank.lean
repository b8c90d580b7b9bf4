namespace PhpLint.Text

-- The Unicode property White_Space.
def isBlank (c : Char) : Bool :=
  let n := c.toNat
  (9 ≤ n && n ≤ 13) || n == 0x20 || n == 0x85 || n == 0xa0 || n == 0x1680 ||
    (0x2000 ≤ n && n ≤ 0x200a) || n == 0x2028 || n == 0x2029 || n == 0x202f ||
    n == 0x205f || n == 0x3000

def trimStart (cs : List Char) : List Char :=
  cs.dropWhile isBlank

def trimEnd (cs : List Char) : List Char :=
  (cs.reverse.dropWhile isBlank).reverse

def trim (cs : List Char) : List Char :=
  trimEnd (trimStart cs)

-- A list without its first part, if it starts with it.
def dropPrefix? (first cs : List Char) : Option (List Char) :=
  if first.isPrefixOf cs then some (cs.drop first.length) else none

def dropSuffix? (last cs : List Char) : Option (List Char) :=
  if last.isSuffixOf cs then some (cs.take (cs.length - last.length)) else none

theorem dropPrefix?_append (first cs : List Char) :
    dropPrefix? first (first ++ cs) = some cs := by
  simp [dropPrefix?]

theorem dropSuffix?_append (cs last : List Char) :
    dropSuffix? last (cs ++ last) = some cs := by
  simp [dropSuffix?]

private def splitLines : List Char → List Char → List (List Char)
  | [], [] => []
  | [], line => [line.reverse]
  | '\n' :: cs, '\r' :: line => line.reverse :: splitLines cs []
  | '\n' :: cs, line => line.reverse :: splitLines cs []
  | c :: cs, line => splitLines cs (c :: line)

-- The lines of a text, each without its line feed and without one carriage return
-- right before that. A text that ends in a line feed has no empty line after it.
def lines (cs : List Char) : List (List Char) :=
  splitLines cs []

private theorem splitLines_append {cs : List Char} (hcs : '\n' ∉ cs) (rest line : List Char) :
    splitLines (cs ++ rest) line = splitLines rest (cs.reverse ++ line) := by
  induction cs generalizing line with
  | nil => rfl
  | cons c cs ih =>
      rw [List.mem_cons, not_or] at hcs
      have hstep : splitLines (c :: (cs ++ rest)) line = splitLines (cs ++ rest) (c :: line) := by
        rw [splitLines]
        · exact fun hc => hcs.1 hc.symm
        · exact fun _ _ hc => hcs.1 hc.symm
      rw [List.cons_append, hstep, ih hcs.2, List.reverse_cons, List.append_assoc]
      rfl

private theorem splitLines_newline {line : List Char} (h : line.head? ≠ some '\r')
    (cs : List Char) : splitLines ('\n' :: cs) line = line.reverse :: lines cs := by
  rw [splitLines, lines]
  rintro rest rfl
  exact h rfl

-- Lines that were joined by line feeds are found again, unless one of them ends in a
-- carriage return. By induction on the lines in front of the last one.
theorem lines_intercalate {first : List (List Char)} {last : List Char}
    (hfirst : ∀ line ∈ first, '\n' ∉ line ∧ line.getLast? ≠ some '\r')
    (hlast : '\n' ∉ last) (hne : last ≠ []) :
    lines (['\n'].intercalate (first ++ [last])) = first ++ [last] := by
  induction first with
  | nil =>
      have hsplit := splitLines_append hlast [] []
      rw [List.append_nil] at hsplit
      rw [List.nil_append, List.intercalate_singleton, lines, hsplit, splitLines]
      · simp
      · simpa using hne
  | cons line first ih =>
      obtain ⟨hfeed, hreturn⟩ := hfirst line List.mem_cons_self
      have hrest := ih fun l hl => hfirst l (List.mem_cons_of_mem line hl)
      have hjoin : ['\n'].intercalate (line :: (first ++ [last])) =
          line ++ '\n' :: ['\n'].intercalate (first ++ [last]) := by
        rw [List.intercalate_cons_of_ne_nil (by simp), List.append_assoc, List.singleton_append]
      rw [List.cons_append, hjoin, lines, splitLines_append hfeed, List.append_nil,
        splitLines_newline (by rwa [List.head?_reverse]), List.reverse_reverse, hrest]

end PhpLint.Text

import Mathlib.Data.Bool.AllAny
import Mathlib.Data.List.Basic
import Mathlib.Tactic.MkIffOfInductiveProp
import PhpLint.Syntax.DocBlock

namespace PhpLint

namespace Text

section Trim

-- Neither end of the text is blank.
@[mk_iff]
structure IsTrimmed (text : List Char) : Prop where
  head : ∀ c ∈ text.head?, isBlank c = false
  last : ∀ c ∈ text.getLast?, isBlank c = false

instance (text : List Char) : Decidable (IsTrimmed text) :=
  decidable_of_iff (text.head?.all (!isBlank ·) ∧ text.getLast?.all (!isBlank ·)) (by
    simp [isTrimmed_iff, Option.all_eq_true])

variable {text : List Char}

theorem dropWhile_isBlank_eq (h : ∀ c ∈ text.head?, isBlank c = false) :
    text.dropWhile isBlank = text := by
  cases text with
  | nil => rfl
  | cons c text => exact List.dropWhile_cons_of_neg (by simp [h c rfl])

theorem IsTrimmed.trim_eq (h : IsTrimmed text) : trim text = text := by
  have hlast : ∀ c ∈ text.reverse.head?, isBlank c = false := by
    rw [List.head?_reverse]
    exact h.last
  rw [trim, trimStart, dropWhile_isBlank_eq h.head, trimEnd, dropWhile_isBlank_eq hlast,
    List.reverse_reverse]

theorem trim_cons_blank {b : Char} (hb : isBlank b) : trim (b :: text) = trim text := by
  rw [trim, trimStart, List.dropWhile_cons_of_pos hb]
  rfl

end Trim

theorem intercalate_append_last (separator last stop : List Char) (front : List (List Char)) :
    separator.intercalate (front ++ [last ++ stop]) =
      separator.intercalate (front ++ [last]) ++ stop := by
  induction front with
  | nil => simp
  | cons line front ih =>
      rw [List.cons_append, List.cons_append, List.intercalate_cons_of_ne_nil (by simp),
        List.intercalate_cons_of_ne_nil (by simp), ih]
      simp only [List.append_assoc]

end Text

namespace DocBlock

open Text

-- A text that fits on a line of a comment. Blanks around it would be lost.
@[mk_iff]
structure IsRow (text : String) : Prop where
  isTrimmed : IsTrimmed text.toList
  newline_notMem : '\n' ∉ text.toList

-- An at sign in front would make it a tag.
@[mk_iff]
structure IsProse (text : String) : Prop extends IsRow text where
  head_ne : text.toList.head? ≠ some '@'

instance (text : String) : Decidable (IsRow text) :=
  decidable_of_iff' _ (isRow_iff text)

instance (text : String) : Decidable (IsProse text) :=
  decidable_of_iff' _ (isProse_iff text)

-- A tag as it is written, with its body line by line.
structure TagText where
  name : String
  body : List String
  name_ne : name ≠ ""
  inName : ∀ c ∈ name.toList, isBlank c = false ∧ c ≠ '('
  body_ne : ∀ line ∈ body, line ≠ ""
  isProse : ∀ line ∈ body, IsProse line

namespace TagText

def tag (t : TagText) : DocTag :=
  ⟨t.name, " ".intercalate t.body⟩

-- The body starts on the line of the name.
def rows (t : TagText) : List String :=
  match t.body with
  | [] => ["@" ++ t.name]
  | first :: more => ("@" ++ t.name ++ " " ++ first) :: more

end TagText

-- A comment with a summary and tags.
def write (summary : String) (tags : List TagText) : String :=
  "\n".intercalate (["/**", " * " ++ summary, " *"] ++
    (tags.flatMap TagText.rows).map (" * " ++ ·) ++ [" */"])

section Lines

-- What stands on a line of a comment.
def content (line : List Char) : List Char :=
  trim ((dropPrefix? ['*'] (trimStart line)).getD (trimStart line))

-- The delimiters stand on the first and the last line.
theorem contentLines_intercalate {middle : List (List Char)}
    (hmiddle : ∀ line ∈ middle, '\n' ∉ line ∧ line.getLast? ≠ some '\r') :
    contentLines (['\n'].intercalate (['/', '*', '*'] :: (middle ++ [[' ', '*', '/']]))) =
      [] :: (middle.map content ++ [[]]) := by
  let inner := ['\n'].intercalate ([] :: middle ++ [[' ']])
  have htext : ['\n'].intercalate (['/', '*', '*'] :: (middle ++ [[' ', '*', '/']])) =
      ['/', '*', '*'] ++ (inner ++ ['*', '/']) := by
    rw [← intercalate_append_last]
    simp only [List.intercalate_cons_cons_left]
    rfl
  have htrimmed : IsTrimmed (['/', '*', '*'] ++ (inner ++ ['*', '/'])) := by
    constructor
    · rintro c ⟨⟩
      rfl
    · intro c hc
      rw [← List.append_assoc, List.getLast?_append_of_ne_nil _ (by simp)] at hc
      cases hc
      rfl
  have hlines : lines inner = [] :: middle ++ [[' ']] := by
    apply lines_intercalate
    · simpa using hmiddle
    · decide
    · decide
  simp only [contentLines, htext, htrimmed.trim_eq, dropPrefix?_append, Option.getD_some,
    dropSuffix?_append, hlines]
  rw [List.map_append]
  rfl

theorem isRow_at {text : String} (hne : text ≠ "") (hnewline : '\n' ∉ text.toList)
    (hlast : ∀ c ∈ text.toList.getLast?, isBlank c = false) : IsRow ("@" ++ text) := by
  have htext : ("@" ++ text).toList = ['@'] ++ text.toList := String.toList_append
  have hnil : text.toList ≠ [] := mt String.toList_eq_nil_iff.mp hne
  refine ⟨⟨?_, ?_⟩, ?_⟩
  · rw [htext]
    rintro c ⟨⟩
    rfl
  · rwa [htext, List.getLast?_append_of_ne_nil _ hnil]
  · rw [htext, List.mem_append, not_or]
    exact ⟨by decide, hnewline⟩

-- A line feed is a blank, so it is not in a name.
theorem TagText.isRow_of_mem_rows (t : TagText) {row : String} (h : row ∈ t.rows) :
    IsRow row := by
  have hname : '\n' ∉ t.name.toList := fun hmem => absurd (t.inName _ hmem).1 (by decide)
  cases hbody : t.body with
  | nil =>
      simp only [rows, hbody, List.mem_singleton] at h
      rw [h]
      exact isRow_at t.name_ne hname fun c hc => (t.inName c (List.mem_of_getLast? hc)).1
  | cons first more =>
      have hfirst : first ∈ t.body := by simp [hbody]
      simp only [rows, hbody, List.mem_cons, String.append_assoc] at h
      rcases h with rfl | hmore
      · have hnil : first.toList ≠ [] := mt String.toList_eq_nil_iff.mp (t.body_ne first hfirst)
        apply isRow_at
        · simp
        · simp [hname, (t.isProse first hfirst).newline_notMem]
        · rw [String.toList_append, String.toList_append,
            List.getLast?_append_of_ne_nil _ (by simp), List.getLast?_append_of_ne_nil _ hnil]
          exact (t.isProse first hfirst).isTrimmed.last
      · exact (t.isProse row (by simp [hbody, hmore])).toIsRow

section Starred

variable {row : String}

theorem toList_starred (row : String) : (" * " ++ row).toList = [' ', '*', ' '] ++ row.toList :=
  String.toList_append

theorem IsRow.content_starred (h : IsRow row) : content (" * " ++ row).toList = row.toList := by
  have hstart : trimStart (' ' :: '*' :: ' ' :: row.toList) = '*' :: ' ' :: row.toList := rfl
  have hstar : dropPrefix? ['*'] ('*' :: ' ' :: row.toList) = some (' ' :: row.toList) := rfl
  rw [toList_starred, content, List.cons_append, List.cons_append, List.singleton_append, hstart,
    hstar, Option.getD_some, trim_cons_blank rfl, h.isTrimmed.trim_eq]

theorem IsRow.newline_notMem_starred (h : IsRow row) : '\n' ∉ (" * " ++ row).toList := by
  rw [toList_starred, List.mem_append, not_or]
  exact ⟨by decide, h.newline_notMem⟩

-- A row does not end in a blank, and an empty one leaves the space after the asterisk.
theorem IsRow.getLast?_starred_ne (h : IsRow row) :
    (" * " ++ row).toList.getLast? ≠ some '\r' := by
  rw [toList_starred]
  intro hlast
  by_cases hnil : row.toList = []
  · rw [hnil] at hlast
    cases hlast
  · rw [List.getLast?_append_of_ne_nil _ hnil] at hlast
    exact absurd (h.isTrimmed.last _ hlast) (by decide)

end Starred

theorem contentLines_write {summary : String} (hsummary : IsProse summary) (tags : List TagText) :
    contentLines (write summary tags).toList =
      [] :: summary.toList :: [] :: ((tags.flatMap TagText.rows).map String.toList ++ [[]]) := by
  let rows := tags.flatMap TagText.rows
  have hrows : ∀ row ∈ rows, IsRow row := by
    intro row hrow
    obtain ⟨t, -, ht⟩ := List.mem_flatMap.mp hrow
    exact t.isRow_of_mem_rows ht
  let middle := (" * " ++ summary) :: " *" :: rows.map (" * " ++ ·)
  have hwrite : (write summary tags).toList =
      ['\n'].intercalate (['/', '*', '*'] :: (middle.map String.toList ++ [[' ', '*', '/']])) := by
    rw [write, String.toList_intercalate]
    simp [middle, rows]
  have hmiddle : ∀ line ∈ middle.map String.toList, '\n' ∉ line ∧ line.getLast? ≠ some '\r' := by
    have hends (row : String) (h : IsRow row) :
        '\n' ∉ (" * " ++ row).toList ∧ (" * " ++ row).toList.getLast? ≠ some '\r' :=
      ⟨h.newline_notMem_starred, h.getLast?_starred_ne⟩
    simp only [middle, List.map_cons, List.map_map, List.forall_mem_cons, List.forall_mem_map]
    exact ⟨hends summary hsummary.toIsRow, by decide, fun row hrow => hends row (hrows row hrow)⟩
  have hstarred : rows.map (content ∘ String.toList ∘ (" * " ++ ·)) = rows.map String.toList :=
    List.map_congr_left fun row hrow => (hrows row hrow).content_starred
  rw [hwrite, contentLines_intercalate hmiddle]
  simp only [middle, List.map_cons, List.map_map, hsummary.toIsRow.content_starred, hstarred]
  rfl

end Lines

section Tags

-- A name ends at a blank.
theorem tagOf_append {name rest : List Char} (hname : ∀ c ∈ name, isBlank c = false ∧ c ≠ '(')
    (hrest : ∀ c ∈ rest.head?, isBlank c) :
    tagOf (name ++ rest) = ⟨String.ofList name, String.ofList (trim rest)⟩ := by
  have hin : ∀ c ∈ name, (!isBlank c && c != '(') = true := by simpa using hname
  have hstop : rest.takeWhile (fun c => !isBlank c && c != '(') = [] ∧
      rest.dropWhile (fun c => !isBlank c && c != '(') = rest := by
    cases rest with
    | nil => simp
    | cons c rest => simp [hrest c rfl]
  simp only [tagOf, List.takeWhile_append_of_pos hin, List.dropWhile_append_of_pos hin, hstop.1,
    hstop.2, List.append_nil]

theorem IsProse.startsTag_eq {line : String} (h : IsProse line) :
    startsTag line.toList = false := by
  have hhead := h.head_ne
  unfold startsTag
  split
  · next htext =>
      rw [htext] at hhead
      exact absurd rfl hhead
  · rfl

theorem addLine_prose {line : String} (h : IsProse line) (hne : line ≠ "") (tags : List DocTag) :
    addLine tags line.toList = tags.modifyHead (extendTag · line.toList) := by
  have hplain := h.startsTag_eq
  have hnil : line.toList ≠ [] := mt String.toList_eq_nil_iff.mp hne
  unfold addLine
  split
  · next htext => simp [htext, startsTag] at hplain
  · next htext => exact absurd htext hnil
  · rfl
  · rfl

-- By induction on the lines. What was read of the body goes on being its front.
theorem foldl_addLine_prose {more : List String} (hne : ∀ line ∈ more, line ≠ "")
    (hprose : ∀ line ∈ more, IsProse line) (name : String) {body : String} (hbody : body ≠ "")
    (earlier : List DocTag) :
    (more.map String.toList).foldl addLine (⟨name, body⟩ :: earlier) =
      ⟨name, " ".intercalate (body :: more)⟩ :: earlier := by
  induction more generalizing body with
  | nil => simp
  | cons line more ih =>
      have hextend : extendTag ⟨name, body⟩ line.toList = ⟨name, body ++ " " ++ line⟩ := by
        simp [extendTag, hbody]
      rw [List.forall_mem_cons] at hne hprose
      rw [List.map_cons, List.foldl_cons, addLine_prose hprose.1 hne.1, List.modifyHead_cons,
        hextend, ih hne.2 hprose.2 (by simp)]
      rfl

theorem foldl_addLine_rows (t : TagText) (earlier : List DocTag) :
    (t.rows.map String.toList).foldl addLine earlier = t.tag :: earlier := by
  have hopen (rest : List Char) (hrest : ∀ c ∈ rest.head?, isBlank c) :
      addLine earlier ('@' :: (t.name.toList ++ rest)) =
        ⟨t.name, String.ofList (trim rest)⟩ :: earlier := by
    simp [addLine, tagOf_append t.inName hrest, t.name_ne]
  cases hbody : t.body with
  | nil =>
      have hrow : ("@" ++ t.name).toList = '@' :: (t.name.toList ++ []) := by simp
      simp only [TagText.rows, TagText.tag, hbody, List.map_singleton, List.foldl_cons,
        List.foldl_nil, hrow, hopen [] (by simp)]
      rfl
  | cons first more =>
      have hfirst : first ∈ t.body := by simp [hbody]
      have hrow : ("@" ++ t.name ++ " " ++ first).toList =
          '@' :: (t.name.toList ++ ' ' :: first.toList) := by simp
      have htrim : String.ofList (trim (' ' :: first.toList)) = first := by
        rw [trim_cons_blank rfl, (t.isProse first hfirst).isTrimmed.trim_eq, String.ofList_toList]
      simp only [TagText.rows, TagText.tag, hbody, List.map_cons, List.foldl_cons, hrow]
      rw [hopen _ (by rintro c ⟨⟩; rfl), htrim]
      exact foldl_addLine_prose (fun l hl => t.body_ne l (by simp [hbody, hl]))
        (fun l hl => t.isProse l (by simp [hbody, hl])) t.name (t.body_ne first hfirst) earlier

theorem foldl_addLine_tags (tags : List TagText) (earlier : List DocTag) :
    ((tags.flatMap TagText.rows).map String.toList).foldl addLine earlier =
      (tags.map TagText.tag).reverse ++ earlier := by
  induction tags generalizing earlier with
  | nil => rfl
  | cons t tags ih =>
      rw [List.flatMap_cons, List.map_append, List.foldl_append, foldl_addLine_rows, ih]
      simp

end Tags

section Summary

-- The rows of a tag start with the at sign in front of its name.
theorem TagText.exists_rows_eq (t : TagText) :
    ∃ text more, t.rows.map String.toList = ('@' :: text) :: more := by
  cases hbody : t.body with
  | nil => exact ⟨t.name.toList, [], by simp [rows, hbody]⟩
  | cons first more =>
      exact ⟨t.name.toList ++ ' ' :: first.toList, more.map String.toList, by simp [rows, hbody]⟩

-- Without a summary the first row that is not empty is that of a tag.
theorem summaryOf_contents {summary : String} (h : IsProse summary) (tags : List TagText) :
    summaryOf ([] :: summary.toList :: [] ::
      ((tags.flatMap TagText.rows).map String.toList ++ [[]])) = summary := by
  cases htext : summary.toList with
  | nil =>
      obtain rfl := String.toList_eq_nil_iff.mp htext
      cases tags with
      | nil => rfl
      | cons t tags =>
          obtain ⟨text, more, hrows⟩ := t.exists_rows_eq
          rw [List.flatMap_cons, List.map_append, hrows]
          rfl
  | cons c text =>
      have hplain := h.startsTag_eq
      rw [htext] at hplain
      have hsummary : String.ofList (c :: text) = summary := by rw [← htext, String.ofList_toList]
      simp [summaryOf, hplain, hsummary]

end Summary

end DocBlock

open DocBlock

-- A comment that was written with a summary and tags has this summary and these tags.
theorem doc_blocks_read_back {summary : String} (hsummary : IsProse summary)
    (tags : List TagText) :
    DocBlock.ofText (DocBlock.write summary tags) = ⟨summary, tags.map TagText.tag⟩ ∧
      ∀ name, (DocBlock.ofText (DocBlock.write summary tags)).hasTag name ↔
        name ∈ tags.map TagText.name := by
  have hdoc : ofText (write summary tags) = ⟨summary, tags.map TagText.tag⟩ := by
    have hblank (tags : List DocTag) : addLine tags [] = tags := rfl
    have hopen : addLine [] summary.toList = [] := by
      by_cases hne : summary = ""
      · rw [hne]
        rfl
      · exact addLine_prose hsummary hne []
    simp only [ofText, contentLines_write hsummary, summaryOf_contents hsummary, List.foldl_cons,
      List.foldl_append, List.foldl_nil, hblank, hopen, foldl_addLine_tags, List.append_nil,
      List.reverse_reverse]
  refine ⟨hdoc, fun name => ?_⟩
  rw [hdoc]
  simp [hasTag, TagText.tag]

-- Asterisks and at signs inside of a line stay, and so does a bracket after a blank.
theorem doc_blocks_read_back_params :
    let text :=
      "/**\n * Adds @ and */ twice.\n *\n * @test\n * @param (int) $x\n * * first\n */"
    IsProse "Adds @ and */ twice." ∧
      DocBlock.ofText text =
        ⟨"Adds @ and */ twice.", [⟨"test", ""⟩, ⟨"param", "(int) $x * first"⟩]⟩ ∧
      (DocBlock.ofText text).hasTag "param" ∧ ¬(DocBlock.ofText text).hasTag "return" := by
  have hsummary : IsProse "Adds @ and */ twice." := by decide
  have hbody : ∀ line ∈ ["(int) $x", "* first"], line ≠ "" ∧ IsProse line :=
    List.all_iff_forall_prop.mp (by decide)
  let test : TagText := ⟨"test", [], by decide, List.all_iff_forall_prop.mp (by decide), by simp,
    by simp⟩
  let param : TagText := ⟨"param", ["(int) $x", "* first"], by decide,
    List.all_iff_forall_prop.mp (by decide), fun line hline => (hbody line hline).1,
    fun line hline => (hbody line hline).2⟩
  obtain ⟨hdoc, htag⟩ := doc_blocks_read_back hsummary [test, param]
  refine ⟨hsummary, hdoc, (htag "param").mpr ?_, fun h => absurd ((htag "return").mp h) ?_⟩
  · simp [param]
  · simp [test, param]

end PhpLint

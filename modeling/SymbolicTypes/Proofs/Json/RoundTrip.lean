import SymbolicTypes.Json.Parser
import SymbolicTypes.Json.Printer
import SymbolicTypes.Proofs.Json.Quoted

namespace SymbolicTypes.Json

mutual

/-- A value that is there as a whole and holds no number. -/
def IsDocument : Json → Prop
  | null | bool _ => True
  | string s => s.isSome = true
  | array items closed => AllDocuments items ∧ closed = true
  | object members closed => MembersDocuments members ∧ closed = true
  | number _ | broken => False

def AllDocuments : List Json → Prop
  | [] => True
  | j :: js => j.IsDocument ∧ AllDocuments js

def MembersDocuments : List (Option String × Json) → Prop
  | [] => True
  | (k, j) :: ms => (k.isSome = true ∧ j.IsDocument) ∧ MembersDocuments ms

end

theorem skipBlanks_cons {c : Char} (h : isBlank c = false) (rest : List Char) :
    skipBlanks (c :: rest) = c :: rest := by
  simp [skipBlanks, h]

theorem skipBlanks_newLine (level : Nat) (rest : List Char) :
    skipBlanks (newLine level ++ rest) = skipBlanks rest := by
  have hblank : ∀ c ∈ newLine level, isBlank c = true := by
    intro c hc
    obtain rfl | hc := List.mem_cons.mp hc
    · decide
    · rw [List.eq_of_mem_replicate hc]
      decide
  exact List.dropWhile_append_of_pos hblank

theorem scanValue_newLine (n level : Nat) (cs : List Char) :
    scanValue n (newLine level ++ cs) = scanValue n cs := by
  cases n with
  | zero => simp only [scanValue]
  | succ n => simp only [scanValue, skipBlanks_newLine]

theorem scanItems_newLine (n level : Nat) (cs : List Char) :
    scanItems n (newLine level ++ cs) = scanItems n cs := by
  cases n with
  | zero => simp only [scanItems]
  | succ n => simp only [scanItems, scanValue_newLine]

theorem scanMembers_newLine (n level : Nat) (cs : List Char) :
    scanMembers n (newLine level ++ cs) = scanMembers n cs := by
  cases n with
  | zero => simp only [scanMembers]
  | succ n => simp only [scanMembers, skipBlanks_newLine]

/-- What is expected of reading with a bound: a printed value, a list of items and a list of
members come back, together with what follows them. -/
structure Reads (n : Nat) : Prop where
  value : ∀ j level rest, j.IsDocument → (j.print level).length ≤ n →
    scanValue n (j.print level ++ rest) = (j, rest)
  items : ∀ js j level outer rest, j.IsDocument → AllDocuments js →
    (j.print level).length + (printItems level js).length < n →
    scanItems n (j.print level ++ (printItems level js ++ (newLine outer ++ ']' :: rest))) =
      (j :: js, true, rest)
  members : ∀ ms k j level outer rest, j.IsDocument → MembersDocuments ms →
    (j.print level).length + (printMembers level ms).length < n →
    scanMembers n (quote k ++ ':' :: ' ' ::
      (j.print level ++ (printMembers level ms ++ (newLine outer ++ '\x7d' :: rest)))) =
      ((some k, j) :: ms, true, rest)

theorem print_eq_cons {j : Json} (level : Nat) (hj : j.IsDocument) :
    ∃ c cs, j.print level = c :: cs ∧ isBlank c = false ∧ c ≠ ']' := by
  match j, hj with
  | null, _ => exact ⟨_, _, rfl, by decide, by decide⟩
  | bool true, _ => exact ⟨_, _, rfl, by decide, by decide⟩
  | bool false, _ => exact ⟨_, _, rfl, by decide, by decide⟩
  | string (some s), _ => exact ⟨'"', _, rfl, by decide, by decide⟩
  | array [] true, _ => exact ⟨_, _, rfl, by decide, by decide⟩
  | array (i :: is) true, _ =>
    simp only [print, List.cons_append]
    exact ⟨_, _, rfl, by decide, by decide⟩
  | object [] true, _ => exact ⟨_, _, rfl, by decide, by decide⟩
  | object ((k, i) :: ms) true, _ =>
    simp only [print, List.cons_append]
    exact ⟨_, _, rfl, by decide, by decide⟩

theorem scanValue_array {n level : Nat} {i : Json} (hi : i.IsDocument) (cs : List Char) :
    scanValue (n + 1) ('[' :: (newLine level ++ (i.print level ++ cs))) =
      (array (scanItems n (i.print level ++ cs)).1 (scanItems n (i.print level ++ cs)).2.1,
        (scanItems n (i.print level ++ cs)).2.2) := by
  obtain ⟨c, ds, hprint, hblank, hc⟩ := print_eq_cons level hi
  have hskip : skipBlanks (newLine level ++ (i.print level ++ cs)) = i.print level ++ cs := by
    rw [skipBlanks_newLine, hprint, List.cons_append, skipBlanks_cons hblank]
  rw [scanValue, skipBlanks_cons (by decide)]
  simp only [hskip]
  rw [hprint, List.cons_append]
  split
  · next heq =>
    simp only [List.cons.injEq] at heq
    exact absurd heq.1 hc
  · rfl

theorem scanValue_object {n level : Nat} (k : String) (cs : List Char) :
    scanValue (n + 1) ('\x7b' :: (newLine level ++ (quote k ++ cs))) =
      (object (scanMembers n (quote k ++ cs)).1 (scanMembers n (quote k ++ cs)).2.1,
        (scanMembers n (quote k ++ cs)).2.2) := by
  have hskip : skipBlanks (newLine level ++ (quote k ++ cs)) = quote k ++ cs := by
    rw [skipBlanks_newLine, quote, List.cons_append, skipBlanks_cons (by decide)]
  rw [scanValue, skipBlanks_cons (by decide)]
  simp only [hskip]
  rfl

theorem reads_succ_value {n : Nat} (h : Reads n) (j : Json) (level : Nat) (rest : List Char)
    (hj : j.IsDocument) (hn : (j.print level).length ≤ n + 1) :
    scanValue (n + 1) (j.print level ++ rest) = (j, rest) := by
  match j, hj with
  | null, _ => simp [print, scanValue, skipBlanks, isBlank]
  | bool b, _ => cases b <;> simp [print, scanValue, skipBlanks, isBlank]
  | string (some s), _ =>
    simp [print, quote, scanValue, skipBlanks, isBlank, scanString_quote]
  | array [] true, _ => simp [print, scanValue, skipBlanks, isBlank]
  | array (i :: is) true, ⟨⟨hi, his⟩, _⟩ =>
    have hlen : (i.print (level + 1)).length + (printItems (level + 1) is).length < n := by
      simp only [print, List.length_cons, List.length_append, newLine] at hn
      omega
    have hitems := h.items is i (level + 1) level rest hi his hlen
    simp only [print, List.cons_append, List.append_assoc, List.nil_append]
    rw [scanValue_array hi, hitems]
  | object [] true, _ => simp [print, scanValue, skipBlanks, isBlank]
  | object ((some k, i) :: ms) true, ⟨⟨⟨_, hi⟩, hms⟩, _⟩ =>
    have hlen : (i.print (level + 1)).length + (printMembers (level + 1) ms).length < n := by
      simp only [print, List.length_cons, List.length_append, newLine] at hn
      omega
    have hmembers := h.members ms k i (level + 1) level rest hi hms hlen
    simp only [print, Option.map_some, Option.getD_some, List.cons_append, List.append_assoc,
      List.nil_append]
    rw [scanValue_object, hmembers]

theorem reads_succ_items {n : Nat} (h : Reads n) (js : List Json) (j : Json)
    (level outer : Nat) (rest : List Char) (hj : j.IsDocument) (hjs : AllDocuments js)
    (hn : (j.print level).length + (printItems level js).length < n + 1) :
    scanItems (n + 1) (j.print level ++ (printItems level js ++ (newLine outer ++ ']' :: rest))) =
      (j :: js, true, rest) := by
  rw [scanItems, h.value j level _ hj (by omega)]
  cases js with
  | nil =>
    simp only [printItems, List.nil_append, skipBlanks_newLine]
    rw [skipBlanks_cons (by decide)]
    rfl
  | cons i is =>
    obtain ⟨hi, his⟩ := hjs
    have hlen : (i.print level).length + (printItems level is).length < n := by
      simp only [printItems, List.length_cons, List.length_append, newLine] at hn
      omega
    have hitems := h.items is i level outer rest hi his hlen
    simp only [printItems, List.cons_append, List.append_assoc]
    rw [skipBlanks_cons (by decide)]
    simp only [scanItems_newLine, hitems]

theorem reads_succ_members {n : Nat} (h : Reads n) (ms : List (Option String × Json)) (k : String)
    (j : Json) (level outer : Nat) (rest : List Char) (hj : j.IsDocument)
    (hms : MembersDocuments ms)
    (hn : (j.print level).length + (printMembers level ms).length < n + 1) :
    scanMembers (n + 1) (quote k ++ ':' :: ' ' ::
      (j.print level ++ (printMembers level ms ++ (newLine outer ++ '\x7d' :: rest)))) =
      ((some k, j) :: ms, true, rest) := by
  have hblank (cs : List Char) : scanValue n (' ' :: cs) = scanValue n cs := by
    cases n with
    | zero => simp only [scanValue]
    | succ n => simp [scanValue, skipBlanks, isBlank]
  rw [scanMembers, quote, List.cons_append, skipBlanks_cons (by decide), List.append_assoc,
    List.singleton_append]
  simp only [scanString_quote]
  rw [skipBlanks_cons (by decide)]
  simp only [hblank, h.value j level _ hj (by omega)]
  match ms, hms with
  | [], _ =>
    simp only [printMembers, List.nil_append, skipBlanks_newLine]
    rw [skipBlanks_cons (by decide)]
    rfl
  | (some l, i) :: is, ⟨⟨_, hi⟩, his⟩ =>
    have hlen : (i.print level).length + (printMembers level is).length < n := by
      simp only [printMembers, List.length_cons, List.length_append, newLine] at hn
      omega
    have hmembers := h.members is l i level outer rest hi his hlen
    simp only [printMembers, Option.map_some, Option.getD_some, List.cons_append,
      List.append_assoc]
    rw [skipBlanks_cons (by decide)]
    simp only [scanMembers_newLine, hmembers]

theorem reads (n : Nat) : Reads n := by
  induction n with
  | zero =>
    refine ⟨?_, fun _ _ _ _ _ _ _ h => absurd h (by omega), fun _ _ _ _ _ _ _ _ h =>
      absurd h (by omega)⟩
    intro j level rest hj hn
    obtain ⟨c, cs, hprint, -⟩ := print_eq_cons level hj
    rw [hprint] at hn
    exact absurd hn (by simp)
  | succ n ih => exact ⟨reads_succ_value ih, reads_succ_items ih, reads_succ_members ih⟩

theorem parse_render {j : Json} (hj : j.IsDocument) : parse j.render = (j, true) := by
  have hscan := (reads (2 * (j.print 0).length + 2)).value j 0 [] hj (by omega)
  rw [List.append_nil] at hscan
  simp only [parse, render, String.toList_ofList, hscan]
  rfl

@[simp]
theorem isDocument_ofString (s : String) : (ofString s).IsDocument := by
  simp [ofString, IsDocument]

@[simp]
theorem isDocument_ofList {js : List Json} : (ofList js).IsDocument ↔ ∀ j ∈ js, j.IsDocument := by
  have all : AllDocuments js ↔ ∀ j ∈ js, j.IsDocument := by
    induction js with
    | nil => simp [AllDocuments]
    | cons j js ih => simp [AllDocuments, ih]
  simp [ofList, IsDocument, all]

@[simp]
theorem isDocument_ofFields {ms : List (String × Json)} :
    (ofFields ms).IsDocument ↔ ∀ m ∈ ms, m.2.IsDocument := by
  have all : MembersDocuments (ms.map fun m => (some m.1, m.2)) ↔ ∀ m ∈ ms, m.2.IsDocument := by
    induction ms with
    | nil => simp [MembersDocuments]
    | cons m ms ih => simp [MembersDocuments, ih]
  simp [ofFields, IsDocument, all]

end SymbolicTypes.Json

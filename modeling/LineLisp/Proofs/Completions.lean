/-
  LineLisp.Proofs.Completions — what the completion of a line offers. The tokens before the cursor
  end in an atom just if the last word before it is not empty, and then the atom is this word. What
  is missing of a name that begins with it are the characters that go on with it.
  - `Token.scan_append_word`: after a break a word is the last token, whatever stands before.
  - `candidates_of_word`: the completions in terms of the last word.
  - `pairwise_sorted`: they are in the order of their bytes, each once.
  - `completes_exactly`: they are what makes the last word a visible name or a keyword, and with one
    of them put in the last atom alone is another.
-/

import LineLisp.Completion
import LineLisp.Proofs.ByteOrder
import LineLisp.Proofs.Provenance
import LineLisp.Proofs.Underline
import LineLisp.Proofs.Visibility

namespace LineLisp

/-! ## The last word -/

namespace Text

/-- The longest last part of the characters in which all of them have the property. -/
structure LastRun (p : Char → Bool) (cs w : List Char) : Prop where
  suffix : w <:+ cs
  each {c : Char} : c ∈ w → p c = true
  longest {u : List Char} : u <:+ cs → (∀ c ∈ u, p c = true) → u.length ≤ w.length

theorem LastRun.of_append {p : Char → Bool} {before w : List Char} (hw : ∀ c ∈ w, p c = true)
    (hbefore : ∀ c ∈ before.getLast?, p c = false) : LastRun p (before ++ w) w where
  suffix := List.suffix_append before w
  each := hw _
  longest {u} hu hall := by
    by_contra hlt
    -- A longer part would have the character before the run in it.
    obtain ⟨more, rfl⟩ := List.suffix_of_suffix_length_le (List.suffix_append before w) hu (by omega)
    obtain ⟨first, hfirst⟩ := hu
    rw [← List.append_assoc] at hfirst
    obtain rfl := List.append_cancel_right hfirst
    cases hlast : more.getLast? with
    | none =>
      rw [List.getLast?_eq_none_iff] at hlast
      simp [hlast] at hlt
    | some c =>
      have hc : p c = true := hall c (List.mem_append_left _ (List.mem_of_getLast? hlast))
      rw [hbefore c (by simp [List.getLast?_append, hlast])] at hc
      cases hc

theorem LastRun.unique {p : Char → Bool} {cs v w : List Char} (hv : LastRun p cs v) (hw : LastRun p cs w) : v = w :=
  (List.suffix_of_suffix_length_le hv.suffix hw.suffix (hw.longest hv.suffix fun _ => hv.each)).eq_of_length_le
    (hv.longest hw.suffix fun _ => hw.each)

/-- Before the last run stands nothing or a character that does not have the property. -/
theorem exists_lastRun (p : Char → Bool) (cs : List Char) :
    ∃ before w, cs = before ++ w ∧ (∀ c ∈ w, p c = true) ∧ ∀ c ∈ before.getLast?, p c = false := by
  refine ⟨cs.rdropWhile p, cs.rtakeWhile p, List.rdropWhile_append_rtakeWhile.symm,
    fun c => List.mem_rtakeWhile_imp, fun c hc => ?_⟩
  obtain ⟨hne, rfl⟩ := List.mem_getLast?_eq_getLast hc
  exact Bool.eq_false_iff.mpr (List.rdropWhile_last_not p cs hne)

end Text

namespace Token

/-- At a break the tokens are divided. -/
theorem scanFrom_append_of_breaks {ds : List Char} (hds : Breaks ds) (start pos : Nat) (word cs : List Char) :
    scanFrom start pos word (cs ++ ds) = scanFrom start pos word cs ++
      scanFrom (pos + Text.byteLength cs) (pos + Text.byteLength cs) [] ds := by
  induction cs generalizing start pos word with
  | nil => exact scanFrom_of_breaks hds start pos word
  | cons d cs ih =>
    simp only [List.cons_append, scanFrom, ih, Text.byteLength_cons, Nat.add_assoc]
    split
    · simp
    · split
      · simp
      · split
        · simp
        · rfl

/-- A word by itself is one atom. -/
theorem scanFrom_word {w : List Char} (hw : IsWord w) (pos : Nat) :
    scanFrom pos pos [] w = [⟨.atom (String.ofList w), ⟨pos, pos + Text.byteLength w⟩⟩] := by
  have happend := scanFrom_append hw.2 pos pos [] []
  rw [List.append_nil, List.append_nil] at happend
  rw [happend, scanFrom, finished, List.reverse_reverse]
  exact mt List.reverse_eq_nil_iff.mp hw.1

/-- After a break a word is the last token, whatever stands before. -/
theorem scan_append_word {before w : List Char} (hbefore : ∀ c ∈ before.getLast?, isAtomChar c = false)
    (hw : IsWord w) : scan (String.ofList (before ++ w)) = scan (String.ofList before) ++
      [⟨.atom (String.ofList w), ⟨Text.byteLength before, Text.byteLength (before ++ w)⟩⟩] := by
  rw [scan, scan, String.toList_ofList, String.toList_ofList, Text.byteLength_append]
  cases hlast : before.getLast? with
  | none =>
    obtain rfl := List.getLast?_eq_none_iff.mp hlast
    simpa [scanFrom, finished] using scanFrom_word hw 0
  | some c =>
    obtain ⟨front, rfl⟩ := List.getLast?_eq_some_iff.mp hlast
    have hc (ds : List Char) : Breaks (c :: ds) := by simpa [Breaks] using hbefore c hlast
    have hnext (pos : Nat) : scanFrom pos pos [] (c :: w) =
        scanFrom pos pos [] [c] ++ scanFrom (pos + c.utf8Size) (pos + c.utf8Size) [] w := by
      rcases isAtomChar_eq_false_iff.mp (hbefore c hlast) with rfl | rfl | hsep
      · simp [scanFrom, finished]
      · simp [scanFrom, finished]
      · rw [scanFrom_separator hsep, scanFrom_separator hsep]
        simp [scanFrom, finished]
    rw [List.append_assoc, List.singleton_append, scanFrom_append_of_breaks (hc w), hnext, scanFrom_word hw,
      scanFrom_append_of_breaks (hc [])]
    simp [Nat.add_assoc]

/-- More of a last word changes the last token alone. -/
theorem scan_longer_word {before w : List Char} (hbefore : ∀ c ∈ before.getLast?, isAtomChar c = false)
    (hw : IsWord w) {more : String} (hlonger : IsWord (w ++ more.toList)) :
    ∃ tokens start, scan (String.ofList (before ++ w)) =
        tokens ++ [⟨.atom (String.ofList w), ⟨start, Text.byteLength (before ++ w)⟩⟩] ∧
      scan (String.ofList (before ++ w) ++ more) = tokens ++
        [⟨.atom (String.ofList w ++ more), ⟨start, Text.byteLength (before ++ w) + Text.byteLength more.toList⟩⟩] := by
  refine ⟨scan (String.ofList before), Text.byteLength before, scan_append_word hbefore hw, ?_⟩
  have htext : String.ofList (before ++ w) ++ more = String.ofList (before ++ (w ++ more.toList)) :=
    String.toList_injective (by simp)
  have hword : String.ofList w ++ more = String.ofList (w ++ more.toList) :=
    String.toList_injective (by simp)
  rw [htext, hword, scan_append_word hbefore hlonger]
  simp [Nat.add_assoc]

/-- After a parenthesis the last token is no atom. -/
theorem getLast?_scan_ne_atom {c : Char} (hc : c = '(' ∨ c = ')') (front : List Char) (word : String) :
    (scan (String.ofList (front ++ [c]))).getLast?.map kind ≠ some (.atom word) := by
  have hbreaks : Breaks [c] := by
    rcases hc with rfl | rfl <;> simp [Breaks] <;> decide
  rw [scan, String.toList_ofList, scanFrom_append_of_breaks hbreaks]
  rcases hc with rfl | rfl <;> simp [scanFrom, finished]

end Token

namespace Completion

/-! ## Completions -/

theorem missing?_eq_some_iff {stem name c : String} : missing? stem name = some c ↔ c ≠ "" ∧ name = stem ++ c := by
  rw [missing?]
  constructor
  · intro h
    split at h
    · next hprefix =>
      obtain ⟨rest, hrest⟩ := List.isPrefixOf_iff_prefix.mp hprefix.1
      rw [← hrest, List.drop_left] at h
      obtain rfl := Option.some.inj h
      have hname : name = stem ++ String.ofList rest := String.toList_injective (by simp [hrest])
      refine ⟨fun hnil => hprefix.2 ?_, hname⟩
      rw [hname, hnil, String.append_empty]
    · cases h
  · rintro ⟨hne, rfl⟩
    have hprefix : stem.toList.isPrefixOf (stem ++ c).toList ∧ stem ≠ stem ++ c := by
      refine ⟨List.isPrefixOf_iff_prefix.mpr (by simp), fun heq => hne ?_⟩
      have hlist := congrArg String.toList heq
      simpa using hlist
    rw [if_pos hprefix, String.toList_append, List.drop_left, String.ofList_toList]

theorem nodup_eraseDups (texts : List String) : texts.eraseDups.Nodup := by
  induction hn : texts.length using Nat.strongRecOn generalizing texts with
  | _ n ih =>
    cases texts with
    | nil => simp
    | cons s texts =>
      have hlen : (texts.filter fun t => !t == s).length < n :=
        Nat.lt_of_le_of_lt (List.length_filter_le _ _) (hn ▸ Nat.lt_succ_self _)
      rw [List.eraseDups_cons]
      refine List.nodup_cons.mpr ⟨fun hmem => ?_, ih _ hlen _ rfl⟩
      simp at hmem

/-- Sorted texts are in the order of their bytes, each once. -/
theorem pairwise_sorted (texts : List String) : (sorted texts).Pairwise fun s t => Text.bytes s < Text.bytes t := by
  have hle : (sorted texts).Pairwise fun s t => decide (s ≤ t) = true :=
    List.pairwise_mergeSort (by simpa using fun _ _ _ => le_trans) (by simpa using le_total) _
  have hne : (sorted texts).Pairwise (· ≠ ·) := (List.mergeSort_perm _ _).symm.nodup (nodup_eraseDups texts)
  exact (hle.and hne).imp fun ⟨hle, hne⟩ => Text.bytes_lt (lt_of_le_of_ne (of_decide_eq_true hle) hne)

theorem mem_sorted_iff {texts : List String} {s : String} : s ∈ sorted texts ↔ s ∈ texts := by
  rw [sorted, List.mem_mergeSort, List.mem_eraseDups]

/-- The name can be completed to: it is visible from the scope, or a keyword. -/
def Offered (h : Heap) (scope : ScopeId) (name : String) : Prop :=
  h.contains scope name = true ∨ ∃ k : Keyword, k.name = name

theorem mem_vocabulary_iff {h : Heap} {scope : ScopeId} {name : String} :
    name ∈ vocabulary h scope ↔ Offered h scope name := by
  simp [vocabulary, Offered, Heap.mem_names_iff, Keyword.mem_all]

section Places

variable {before w : List Char} (hbefore : ∀ c ∈ before.getLast?, Token.isAtomChar c = false) (after : List Char)
  (h : Heap) (scope : ScopeId)

include hbefore

/-- Where no word ends there is nothing to complete. -/
theorem candidates_of_no_word :
    candidates h scope (String.ofList (before ++ after)) (Text.byteLength before) = [] := by
  rw [candidates, String.toList_ofList, Text.takeBytes_append]
  split
  · rfl
  · next hblank =>
    cases hlast : before.getLast? with
    | none =>
      obtain rfl := List.getLast?_eq_none_iff.mp hlast
      rfl
    | some c =>
      rw [hlast] at hblank
      have hparenthesis : c = '(' ∨ c = ')' := by
        rcases Token.isAtomChar_eq_false_iff.mp (hbefore c hlast) with hc | hc | hsep
        · exact .inl hc
        · exact .inr hc
        · exact absurd (Token.isBlankChar_of_isSeparator hsep) hblank
      obtain ⟨front, rfl⟩ := List.getLast?_eq_some_iff.mp hlast
      split
      · next stem hstem => exact absurd hstem (Token.getLast?_scan_ne_atom hparenthesis front stem)
      · rfl

/-- Where a word ends it is completed, unless its last character is blank. -/
theorem candidates_of_word (hw : IsWord w) :
    candidates h scope (String.ofList (before ++ w ++ after)) (Text.byteLength (before ++ w)) =
      if w.getLast?.any Text.isBlankChar then []
      else sorted ((vocabulary h scope).filterMap (missing? (String.ofList w))) := by
  have hlast : (before ++ w).getLast? = w.getLast? := List.getLast?_append_of_ne_nil before hw.1
  rw [candidates, String.toList_ofList, Text.takeBytes_append, hlast, Token.scan_append_word hbefore hw,
    List.getLast?_concat]
  rfl

end Places

end Completion

/-! ## Names that are read -/

/-- Some text is read as trees among which there is one with the name in it, as a symbol. -/
def Reader.Produces (name : String) : Prop :=
  ∃ text trees, (ofText text).readAll = .ok trees ∧ ∃ tree ∈ trees, (Value.symbol name).Part tree

/-- The names that can be read are the words that are not written as numbers. -/
theorem Reader.produces_iff {name : String} : Produces name ↔ IsWord name.toList ∧ Number.ofText? name = none := by
  constructor
  · rintro ⟨text, trees, hread, tree, htree, hpart⟩
    have hreadable := (readable_of_readAll hread fun t => Token.wellSpelled_of_mem_scan).1 tree htree
    cases hreadable.plain.part hpart with
    | symbol hword hnumber => exact ⟨hword, hnumber⟩
  · rintro ⟨hword, hnumber⟩
    have hsymbol : Value.ofAtom name = .symbol name := by rw [Value.ofAtom, hnumber]
    refine ⟨name, [.symbol name], ?_, _, List.mem_singleton_self _, .refl⟩
    have hscan : Token.scan name = [⟨.atom name, ⟨0, Text.byteLength name.toList⟩⟩] := by
      simpa [Token.scan] using Token.scanFrom_word hword 0
    refine readAll_lexemes (List.forall_mem_singleton.mpr (hsymbol ▸ .atom hword)) ?_
    rw [hscan, ← hsymbol]
    simp [TokenKind.lexeme, Value.lexemesAll, Value.lexemes_ofAtom]

open Completion

/-- Completion at a place of a line takes the longest word before it. If there is none, or if it ends
    in a blank character, there are no completions; otherwise these are the texts, not empty, that
    make the word a name that is visible from the scope or a keyword. They come in the order of their
    bytes, each once. With one of them put in, if it makes a name that can be read, the last token
    before the place is this name, and the other ones are as before. -/
theorem completes_exactly (h : Heap) (scope : ScopeId) (before after : List Char) :
    ∃ w, Text.LastRun Token.isAtomChar before w ∧
      let found := complete h scope (String.ofList (before ++ after)) (Text.byteLength before)
      let stem := String.ofList w
      found.1 = Text.byteLength before ∧
      (w = [] ∨ (∃ c ∈ w.getLast?, Text.isBlankChar c = true) → found.2 = []) ∧
      (w ≠ [] → (∀ c ∈ w.getLast?, Text.isBlankChar c = false) →
        ∀ more, more ∈ found.2 ↔ more ≠ "" ∧ Offered h scope (stem ++ more)) ∧
      found.2.Pairwise (fun s t => Text.bytes s < Text.bytes t) ∧
      ∀ more ∈ found.2, Reader.Produces (stem ++ more) → ∃ tokens start,
        Token.scan (String.ofList before) = tokens ++ [⟨.atom stem, ⟨start, Text.byteLength before⟩⟩] ∧
        Token.scan (String.ofList before ++ more) = tokens ++
          [⟨.atom (stem ++ more), ⟨start, Text.byteLength before + Text.byteLength more.toList⟩⟩] := by
  obtain ⟨front, w, rfl, hw, hfront⟩ := Text.exists_lastRun Token.isAtomChar before
  refine ⟨w, .of_append hw hfront, ?_⟩
  by_cases hnil : w = []
  · subst hnil
    intro found stem
    have hfound : found.2 = [] := by
      simpa [found, complete] using candidates_of_no_word hfront after h scope
    rw [hfound]
    exact ⟨rfl, fun _ => rfl, fun hne => absurd rfl hne, .nil, fun more hmore => absurd hmore List.not_mem_nil⟩
  · have hword : IsWord w := ⟨hnil, hw⟩
    intro found stem
    have hfound := candidates_of_word hfront after h scope hword
    change found.2 = _ at hfound
    rw [hfound]
    refine ⟨rfl, ?_, fun _ hblank more => ?_, ?_, fun more _ hproduces => ?_⟩
    · rintro (hempty | hblank)
      · exact absurd hempty hnil
      · rw [if_pos ((Option.any_eq_true _ _).mpr hblank)]
    · have hnot : ¬ w.getLast?.any Text.isBlankChar = true := fun hany => by
        obtain ⟨c, hlast, hc⟩ := (Option.any_eq_true _ _).mp hany
        exact Bool.false_ne_true ((hblank c hlast).symm.trans hc)
      rw [if_neg hnot, mem_sorted_iff, List.mem_filterMap]
      simp [stem, missing?_eq_some_iff, mem_vocabulary_iff, and_comm]
    · split
      · exact .nil
      · exact pairwise_sorted _
    · obtain ⟨hlonger, -⟩ := Reader.produces_iff.mp hproduces
      rw [String.toList_append, String.toList_ofList] at hlonger
      exact Token.scan_longer_word hfront hword hlonger

/-- A scope and one inside it, with one name in both of them. -/
def defaultsTwice : Heap where
  frames := #[⟨none, [("default", .int 1), ("x", .int 2)]⟩, ⟨some 0, [("default", .int 3), ("defer", .int 4)]⟩]
  closures := 0

/-- Before the parenthesis stands the beginning of two names, one of them in both scopes, and of a keyword. -/
theorem completes_exactly_shadowed :
    let found := complete defaultsTwice 1 "(+ x de)" 7
    found.1 = 7 ∧ ("fault" ∈ found.2 ∧ "fer" ∈ found.2 ∧ "fine" ∈ found.2 ∧ "" ∉ found.2) ∧
      found.2.Pairwise (fun s t => Text.bytes s < Text.bytes t) ∧
      ∃ tokens start, Token.scan "(+ x de" = tokens ++ [⟨.atom "de", ⟨start, 7⟩⟩] ∧
        Token.scan "(+ x defer" = tokens ++ [⟨.atom "defer", ⟨start, 10⟩⟩] := by
  obtain ⟨w, hw, hat, -, hmem, hsorted, hput⟩ :=
    completes_exactly defaultsTwice 1 ['(', '+', ' ', 'x', ' ', 'd', 'e'] [')']
  have hrun : Text.LastRun Token.isAtomChar (['(', '+', ' ', 'x', ' '] ++ ['d', 'e']) ['d', 'e'] := by
    apply Text.LastRun.of_append <;> simp [Token.isAtomChar, Token.isSeparator]
  obtain rfl : w = ['d', 'e'] := hw.unique hrun
  have hmore := hmem (by simp) (by simpa using by decide)
  have hvisible : defaultsTwice.contains 1 "default" = true ∧ defaultsTwice.contains 1 "defer" = true := by
    simp [Heap.contains, Heap.chain, defaultsTwice, Frame.contains]
  have hfault := (hmore "fault").mpr ⟨by decide, .inl hvisible.1⟩
  have hfer := (hmore "fer").mpr ⟨by decide, .inl hvisible.2⟩
  have hfine := (hmore "fine").mpr ⟨by decide, .inr ⟨.define, by decide +kernel⟩⟩
  have hread : Reader.Produces "defer" :=
    Reader.produces_iff.mpr ⟨⟨by simp, by simp [Token.isAtomChar, Token.isSeparator]⟩, by decide +kernel⟩
  exact ⟨hat, ⟨hfault, hfer, hfine, fun h => ((hmore "").mp h).1 rfl⟩, hsorted, hput "fer" hfer hread⟩

end LineLisp

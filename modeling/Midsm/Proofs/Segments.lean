import Mathlib.Data.List.TakeWhile
import Midsm.Lib.Words
import Midsm.Ref.Init

/-!
# The segment parser

`readSegFromStr` walks over the segments of a line, the words between blanks up to the
newline or the end of the string. Its index counts down with the segments, and what
the test behind the loop reads is one less than the segments that were still to go:
so a line is rejected only when it lacks two segments or more. `selected` is what the
code makes of the segments, and the results say for which lines it is what the comment above
the function promises: the segment with the index, or an error.
-/

namespace Midsm

open Midsm.Lib

def isBlank (ch : Byte) : Bool := ch = chSpace ∨ ch = chTab

def isEnd (ch : Byte) : Bool := ch = chNul ∨ ch = chNewline

/-- The string up to its first newline. -/
def lineOf (s : List Byte) : List Byte := s.takeWhile fun ch => !isEnd ch

def segments (s : List Byte) : List (List Byte) := words isBlank (lineOf s)

/-- There is a NUL or a newline. -/
def Ended (s : List Byte) : Prop := ∃ ch ∈ s, isEnd ch = true

section

variable {ch e c : Byte} {s w rest : List Byte} {contentsize : Int} {len room index : Nat}

theorem isEnd_of_isBlank (h : isBlank ch = true) : isEnd ch = false := by
  rw [isBlank, decide_eq_true_eq] at h
  rcases h with rfl | rfl <;> rfl

theorem ended_append_nul (s : List Byte) : Ended (s ++ [chNul]) :=
  ⟨chNul, List.mem_append_right s List.mem_cons_self, rfl⟩

/-! ## Segments of a string -/

theorem lineOf_dropWhile (s : List Byte) :
    lineOf (s.dropWhile isBlank) = (lineOf s).dropWhile isBlank := by
  induction s with
  | nil => rfl
  | cons ch s ih =>
      by_cases hb : isBlank ch = true
      · have he := isEnd_of_isBlank hb
        rw [List.dropWhile_cons_of_pos hb, ih, lineOf, lineOf,
          List.takeWhile_cons_of_pos (by simp [he]), List.dropWhile_cons_of_pos hb]
      · rw [List.dropWhile_cons_of_neg hb]
        by_cases he : isEnd ch = true
        · rw [lineOf, List.takeWhile_cons_of_neg (by simp [he])]
          rfl
        · rw [lineOf, List.takeWhile_cons_of_pos (by simp [he]), List.dropWhile_cons_of_neg hb]

theorem segments_dropWhile (s : List Byte) : segments (s.dropWhile isBlank) = segments s := by
  rw [segments, lineOf_dropWhile, words_dropWhile]
  rfl

theorem Ended.dropWhile (h : Ended s) : Ended (s.dropWhile isBlank) := by
  obtain ⟨ch, hm, he⟩ := h
  rw [← List.takeWhile_append_dropWhile (p := isBlank) (l := s), List.mem_append] at hm
  rcases hm with hm | hm
  · have := isEnd_of_isBlank (List.mem_takeWhile_imp hm)
    rw [he] at this
    cases this
  · exact ⟨ch, hm, he⟩

/-- The characters of a segment. -/
def Plain (w : List Byte) : Prop := ∀ ch ∈ w, isBlank ch = false ∧ isEnd ch = false

theorem Ended.run (h : Ended s) : ∃ w e rest, s = w ++ e :: rest ∧ Plain w ∧
    (isBlank e = true ∨ isEnd e = true) := by
  induction s with
  | nil =>
      obtain ⟨ch, hm, -⟩ := h
      cases hm
  | cons ch s ih =>
      by_cases hp : isBlank ch = true ∨ isEnd ch = true
      · exact ⟨[], ch, s, rfl, fun _ hm => absurd hm List.not_mem_nil, hp⟩
      · obtain ⟨hb, he⟩ := not_or.mp hp
        rw [Bool.not_eq_true] at hb he
        have hs : Ended s := by
          obtain ⟨ch', hm, he'⟩ := h
          rcases List.mem_cons.mp hm with rfl | hm
          · rw [he] at he'
            cases he'
          · exact ⟨ch', hm, he'⟩
        obtain ⟨w, e, rest, rfl, hw, he'⟩ := ih hs
        refine ⟨ch :: w, e, rest, rfl, fun ch' hm => ?_, he'⟩
        rcases List.mem_cons.mp hm with rfl | hm
        · exact ⟨hb, he⟩
        · exact hw ch' hm

theorem Plain.takeWhile (hw : Plain w) :
    lineOf (w ++ e :: rest) = w ++ lineOf (e :: rest) := by
  rw [lineOf, List.takeWhile_append_of_pos fun ch hm => by simp [(hw ch hm).2]]
  rfl

theorem segments_end (he : isEnd e = true) : segments (e :: rest) = [] := by
  rw [segments, lineOf, List.takeWhile_cons_of_neg (by simp [he])]
  rfl

theorem segments_last (hne : w ≠ []) (hw : Plain w) (he : isEnd e = true) :
    segments (w ++ e :: rest) = [w] := by
  rw [segments, hw.takeWhile, lineOf, List.takeWhile_cons_of_neg (by simp [he]), List.append_nil]
  exact words_single hne fun ch hm => (hw ch hm).1

theorem segments_run (hne : w ≠ []) (hw : Plain w) (hb : isBlank e = true) :
    segments (w ++ e :: rest) = w :: segments rest := by
  rw [segments, hw.takeWhile, lineOf,
    List.takeWhile_cons_of_pos (by simp [isEnd_of_isBlank hb])]
  exact words_run hne (fun ch hm => (hw ch hm).1) hb

/-- A line that begins with a segment. -/
theorem segments_ne_nil (h : Ended (ch :: rest)) (hb : isBlank ch = false)
    (he : isEnd ch = false) : segments (ch :: rest) ≠ [] := by
  obtain ⟨w, e, rest', hs, hw, hstop⟩ := h.run
  have hne : w ≠ [] := by
    rintro rfl
    obtain rfl := (List.cons.inj hs).1
    rcases hstop with h | h
    · rw [hb] at h
      cases h
    · rw [he] at h
      cases h
  rw [hs]
  rcases hstop with h | h
  · rw [segments_run hne hw h]
    exact List.cons_ne_nil _ _
  · rw [segments_last hne hw h]
    exact List.cons_ne_nil _ _

/-! ## The loops of the parser -/

theorem skipBlanks_eq (s : List Byte) : skipBlanks s =
    (s.dropWhile isBlank).head?.map fun ch => (ch, s.dropWhile isBlank) := by
  induction s with
  | nil => rfl
  | cons ch s ih =>
      rw [skipBlanks]
      by_cases hb : isBlank ch = true
      · have he := isEnd_of_isBlank hb
        rw [isEnd, decide_eq_false_iff_not, not_or] at he
        rw [if_pos ⟨of_decide_eq_true hb, he⟩, ih, List.dropWhile_cons_of_pos hb]
      · rw [if_neg fun h => hb (decide_eq_true h.1), List.dropWhile_cons_of_neg hb]
        rfl

theorem Ended.skipBlanks (h : Ended s) : ∃ ch rest, s.dropWhile isBlank = ch :: rest ∧
    isBlank ch = false ∧ skipBlanks s = some (ch, ch :: rest) := by
  obtain ⟨ch', hm, -⟩ := h.dropWhile
  cases hd : s.dropWhile isBlank with
  | nil =>
      rw [hd] at hm
      cases hm
  | cons ch rest =>
      refine ⟨ch, rest, rfl, ?_, ?_⟩
      · have := List.head_dropWhile_not isBlank (l := s) (by rw [hd]; exact List.cons_ne_nil _ _)
        simpa [hd] using this
      · rw [skipBlanks_eq, hd]
        rfl

theorem plain_iff : (ch ≠ chSpace ∧ ch ≠ chTab ∧ ch ≠ chNul ∧ ch ≠ chNewline) ↔
    isBlank ch = false ∧ isEnd ch = false := by
  rw [isBlank, isEnd, decide_eq_false_iff_not, decide_eq_false_iff_not]
  tauto

/-- A segment that fits is read to its end. -/
theorem scanSegment_fits (hw : Plain w) (he : isBlank e = true ∨ isEnd e = true)
    (hlen : (len : Int) + w.length ≤ contentsize - 1) :
    scanSegment contentsize (w ++ e :: rest) len = some (e, e :: rest, len + w.length) := by
  induction w generalizing len with
  | nil =>
      rw [List.nil_append, scanSegment, if_neg]
      · rfl
      · rintro ⟨h₁, h₂, h₃, h₄, -⟩
        obtain ⟨hb, hn⟩ := plain_iff.mp ⟨h₁, h₂, h₃, h₄⟩
        rcases he with he | he
        · rw [hb] at he
          cases he
        · rw [hn] at he
          cases he
  | cons ch w ih =>
      obtain ⟨h₁, h₂, h₃, h₄⟩ := plain_iff.mpr (hw ch List.mem_cons_self)
      rw [List.length_cons] at hlen ⊢
      rw [List.cons_append, scanSegment, if_pos ⟨h₁, h₂, h₃, h₄, by omega⟩,
        ih (fun ch hm => hw ch (List.mem_cons_of_mem _ hm)) (by omega)]
      congr 3
      omega

/-- A longer one is cut off. -/
theorem scanSegment_long (hw : Plain w) (hlen : contentsize - 1 < (len : Int) + w.length)
    (hle : (len : Int) ≤ contentsize - 1) :
    ∃ ch next len', scanSegment contentsize (w ++ rest) len = some (ch, next, len') ∧
      isBlank ch = false ∧ isEnd ch = false ∧ (len' : Int) = contentsize - 1 := by
  induction w generalizing len with
  | nil =>
      rw [List.length_nil] at hlen
      omega
  | cons ch w ih =>
      have hch := hw ch List.mem_cons_self
      obtain ⟨h₁, h₂, h₃, h₄⟩ := plain_iff.mpr hch
      rw [List.length_cons] at hlen
      rw [List.cons_append, scanSegment]
      by_cases hlt : (len : Int) < contentsize - 1
      · rw [if_pos ⟨h₁, h₂, h₃, h₄, hlt⟩]
        exact ih (fun ch hm => hw ch (List.mem_cons_of_mem _ hm)) (by omega) (by omega)
      · rw [if_neg fun h => hlt h.2.2.2.2]
        exact ⟨ch, _, len, rfl, hch.1, hch.2, by omega⟩

/-! ## What the code makes of the segments -/

/-- A line without segments counts as an empty one, and the index behind the last segment
still selects that segment. -/
def selected (room : Nat) : List (List Byte) → Nat → Option (List Byte)
  | [], index => if index ≤ 1 then some [] else none
  | [w], index => if w.length ≤ room ∧ index ≤ 1 then some w else none
  | w :: _ :: _, 0 => if w.length ≤ room then some w else none
  | w :: w' :: ws, index + 1 => if w.length ≤ room then selected room (w' :: ws) index else none

theorem selected_long {ws : List (List Byte)} (h : room < w.length) :
    selected room (w :: ws) index = none := by
  cases ws with
  | nil => exact if_neg (by omega)
  | cons w' ws =>
      cases index with
      | zero => exact if_neg (by omega)
      | succ index => exact if_neg (by omega)

/-- What the loop leaves, as the statements behind it read it. -/
def Leaves (word : Option (List Byte)) (r : Option (Byte × Int × List Byte × Nat)) : Prop :=
  match word, r with
  | none, none => True
  | none, some (ch, index, _, _) => isEnd ch = true ∧ index > 0
  | some _, none => False
  | some w, some (ch, index, head, len) =>
      ¬ (isEnd ch = true ∧ index > 0) ∧ len = w.length ∧ Plain w ∧ w <+: head

/-- One round of the loop on `s`: a segment is scanned and the blanks behind it are skipped. -/
inductive ScanRound (contentsize : Int) (room index : Nat) (s : List Byte) :
    Option (Option (Byte × Int × List Byte × Nat)) → Prop
  | long (w : List Byte) (ws : List (List Byte)) : room < w.length → segments s = w :: ws →
      ScanRound contentsize room index s (some none)
  | last (w : List Byte) (e : Byte) : Plain w → w <+: s → w.length ≤ room →
      segments s = [w] ∨ segments s = [] ∧ w = [] → isEnd e = true →
      ScanRound contentsize room index s (some (some (e, (index : Int) - 1, s, w.length)))
  | more (w next : List Byte) (ch : Byte) : Plain w → w <+: s → w.length ≤ room → Ended next →
      next.dropWhile isBlank = next → isEnd ch = false → segments s = w :: segments next →
      segments next ≠ [] →
      ScanRound contentsize room index s (segmentLoop contentsize index ch s next w.length)

/-- The loop starts a round at a segment, or at the end of a blank line. -/
theorem segmentLoop_round (hsize : contentsize = room + 1) (hs : Ended s)
    (hfirst : s.dropWhile isBlank = s) (ch : Byte) (head : List Byte) (len : Nat) :
    ScanRound contentsize room index s (segmentLoop contentsize (index + 1) ch head s len) := by
  obtain ⟨w, e, rest, rfl, hw, hstop⟩ := hs.run
  rw [segmentLoop]
  by_cases hlong : room < w.length
  · have hne : w ≠ [] := by
      rintro rfl
      exact Nat.not_lt_zero _ hlong
    obtain ⟨ch', next, len', hscan, hb, he, hlen⟩ : ∃ ch next len',
        scanSegment contentsize (w ++ e :: rest) 0 = some (ch, next, len') ∧
          isBlank ch = false ∧ isEnd ch = false ∧ (len' : Int) = contentsize - 1 :=
      scanSegment_long hw (by omega) (by omega)
    obtain ⟨h₁, h₂, h₃, h₄⟩ := plain_iff.mpr ⟨hb, he⟩
    rw [hscan]
    dsimp only
    rw [if_pos ⟨h₁, h₂, h₃, h₄, hlen⟩]
    rcases hstop with h | h
    · exact .long w _ hlong (segments_run hne hw h)
    · exact .long w [] hlong (segments_last hne hw h)
  · rw [scanSegment_fits hw hstop (by omega), Nat.zero_add]
    dsimp only
    have hnot : ¬ (e ≠ chSpace ∧ e ≠ chTab ∧ e ≠ chNul ∧ e ≠ chNewline ∧
        (w.length : Int) = contentsize - 1) := by
      rintro ⟨h₁, h₂, h₃, h₄, -⟩
      obtain ⟨hb, hn⟩ := plain_iff.mp ⟨h₁, h₂, h₃, h₄⟩
      rw [hb, hn] at hstop
      rcases hstop with h | h <;> cases h
    have hpre : w <+: w ++ e :: rest := List.prefix_append w _
    rw [if_neg hnot]
    rcases hstop with hb | he
    · have hne : w ≠ [] := by
        rintro rfl
        rw [List.nil_append, List.dropWhile_cons_of_pos hb] at hfirst
        have := congrArg List.length hfirst
        have := (List.dropWhile_suffix (l := rest) isBlank).length_le
        rw [List.length_cons] at *
        omega
      have hrest : Ended rest := by
        obtain ⟨ch', hm, he⟩ := hs
        rcases List.mem_append.mp hm with hm | hm
        · rw [(hw ch' hm).2] at he
          cases he
        rcases List.mem_cons.mp hm with rfl | hm
        · rw [isEnd_of_isBlank hb] at he
          cases he
        · exact ⟨ch', hm, he⟩
      obtain ⟨ch', rest', hd, hb', hskip⟩ := hrest.skipBlanks
      have hseg : segments (w ++ e :: rest) = w :: segments (ch' :: rest') := by
        rw [segments_run hne hw hb, ← segments_dropWhile rest, hd]
      have hskip' : skipBlanks (e :: rest) = some (ch', ch' :: rest') := by
        rw [skipBlanks_eq, List.dropWhile_cons_of_pos hb, hd]
        rfl
      rw [hskip']
      dsimp only
      by_cases he : isEnd ch' = true
      · rw [if_pos (of_decide_eq_true he)]
        refine .last w ch' hw hpre (by omega) (Or.inl ?_) he
        rw [hseg, segments_end he]
      · rw [if_neg fun h => he (decide_eq_true h)]
        rw [Bool.not_eq_true] at he
        have hnext : Ended (ch' :: rest') := by
          rw [← hd]
          exact hrest.dropWhile
        exact .more w _ ch' hw hpre (by omega) hnext (List.dropWhile_cons_of_neg (by simp [hb']))
          he hseg (segments_ne_nil hnext hb' he)
    · have hb : ¬ isBlank e = true := fun hb => by
        rw [isEnd_of_isBlank hb] at he
        cases he
      have hskip : skipBlanks (e :: rest) = some (e, e :: rest) := by
        rw [skipBlanks_eq, List.dropWhile_cons_of_neg hb]
        rfl
      rw [hskip]
      dsimp only
      rw [if_pos (of_decide_eq_true he)]
      refine .last w e hw hpre (by omega) ?_ he
      by_cases hne : w = []
      · subst hne
        exact Or.inr ⟨segments_end he, rfl⟩
      · exact Or.inl (segments_last hne hw he)

theorem segmentLoop_leaves (index : Nat) (hsize : contentsize = room + 1) (hs : Ended s)
    (hfirst : s.dropWhile isBlank = s) (ch : Byte) (head : List Byte) (len : Nat) :
    ∃ r, segmentLoop contentsize (index + 1) ch head s len = some r ∧
      Leaves (selected room (segments s) index) r := by
  induction index generalizing s ch head len with
  | zero =>
      have hround : ScanRound contentsize room 0 s _ := segmentLoop_round hsize hs hfirst ch head len
      generalize segmentLoop contentsize (0 + 1) ch head s len = r at hround ⊢
      cases hround with
      | long w ws hlong hseg =>
          refine ⟨none, rfl, ?_⟩
          rw [hseg, selected_long hlong]
          trivial
      | last w e hw hpre hle hseg he =>
          refine ⟨_, rfl, ?_⟩
          have hsel : selected room (segments s) 0 = some w := by
            rcases hseg with hseg | ⟨hseg, rfl⟩
            · rw [hseg]
              exact if_pos ⟨hle, by omega⟩
            · rw [hseg]
              rfl
          rw [hsel]
          exact ⟨fun h => absurd h.2 (by decide), rfl, hw, hpre⟩
      | more w next ch' hw hpre hle hn hf he hseg hne =>
          obtain ⟨w', ws, hws⟩ := List.exists_cons_of_ne_nil hne
          refine ⟨_, rfl, ?_⟩
          rw [hseg, hws, selected, if_pos hle]
          exact ⟨fun h => absurd h.2 (by decide), rfl, hw, hpre⟩
  | succ index ih =>
      have hround : ScanRound contentsize room (index + 1) s _ :=
        segmentLoop_round hsize hs hfirst ch head len
      generalize segmentLoop contentsize (index + 1 + 1) ch head s len = r at hround ⊢
      cases hround with
      | long w ws hlong hseg =>
          refine ⟨none, rfl, ?_⟩
          rw [hseg, selected_long hlong]
          trivial
      | last w e hw hpre hle hseg he =>
          refine ⟨_, rfl, ?_⟩
          have hsel : selected room (segments s) (index + 1) =
              if index + 1 ≤ 1 then some w else none := by
            rcases hseg with hseg | ⟨hseg, rfl⟩
            · rw [hseg, selected]
              exact if_congr (and_iff_right hle) rfl rfl
            · rw [hseg]
              rfl
          rw [hsel]
          split
          · exact ⟨fun h => by omega, rfl, hw, hpre⟩
          · exact ⟨he, by omega⟩
      | more w next ch' hw hpre hle hn hf he hseg hne =>
          obtain ⟨w', ws, hws⟩ := List.exists_cons_of_ne_nil hne
          obtain ⟨r, hr, hl⟩ := ih hn hf ch' s w.length
          refine ⟨r, hr, ?_⟩
          rw [hws] at hl
          rw [hseg, hws, selected, if_pos hle]
          exact hl

/-- The bytes of `w` and a NUL, written to an array. -/
def putString (w : List Byte) (content : Nat → Byte) : Nat → Byte :=
  fun i => if i < w.length then w[i]?.getD chNul else if i = w.length then chNul else content i

theorem upd_strncpy {head : List Byte} (hw : Plain w) (hpre : w <+: head)
    (content : Nat → Byte) :
    upd (strncpy content head w.length) w.length chNul = putString w content := by
  obtain ⟨rest, rfl⟩ := hpre
  funext i
  unfold putString
  by_cases hi : i = w.length
  · rw [hi, upd_self, if_neg (Nat.lt_irrefl _), if_pos rfl]
  · rw [upd_ne hi, strncpy, if_neg hi]
    refine ite_congr rfl (fun hlt => ?_) fun _ => rfl
    have htake : (w ++ rest).takeWhile (· ≠ chNul) = w ++ rest.takeWhile (· ≠ chNul) :=
      List.takeWhile_append_of_pos fun ch hm => by
        have hend := (hw ch hm).2
        rw [isEnd, decide_eq_false_iff_not, not_or] at hend
        exact decide_eq_true hend.1
    rw [htake, List.getElem?_append_left hlt]

/-- The parser always returns, and reads nothing behind the end of the string. -/
theorem readSegFromStr_eq (hs : Ended s) (index room : Nat) (content : Nat → Byte) :
    readSegFromStr (some s) index (some content) (room + 1) =
      match selected room (segments s) index with
      | none => some (-1, some content)
      | some w => some (0, some (putString w content)) := by
  obtain ⟨ch, rest, hd, hb, hskip⟩ := hs.skipBlanks
  have hnext : Ended (ch :: rest) := by
    rw [← hd]
    exact hs.dropWhile
  obtain ⟨r, hloop, hl⟩ := segmentLoop_leaves index rfl hnext
    (List.dropWhile_cons_of_neg (by simp [hb])) ch s 0
  rw [← hd, segments_dropWhile] at hl
  rw [readSegFromStr, if_neg (by omega), hskip]
  dsimp only
  rw [Int.toNat_natCast, hloop]
  cases hsel : selected room (segments s) index with
  | none =>
      rw [hsel] at hl
      cases r with
      | none => rfl
      | some r =>
          obtain ⟨ch, i, head, len⟩ := r
          dsimp only
          rw [if_pos ⟨of_decide_eq_true hl.1, hl.2⟩]
  | some w =>
      rw [hsel] at hl
      cases r with
      | none => exact False.elim hl
      | some r =>
          obtain ⟨ch, i, head, len⟩ := r
          obtain ⟨hno, rfl, hw, hpre⟩ := hl
          dsimp only
          rw [if_neg fun h => hno ⟨decide_eq_true h.1, h.2⟩, upd_strncpy hw hpre]

theorem segments_append_nul (chars : List Byte) : segments (chars ++ [chNul]) = segments chars := by
  have hline : lineOf (chars ++ [chNul]) = lineOf chars := by
    rw [lineOf, lineOf, List.takeWhile_append]
    split
    · next h =>
        rw [List.takeWhile_cons_of_neg (by decide), List.append_nil]
        exact ((List.takeWhile_prefix _).eq_of_length h).symm
    · rfl
  rw [segments, segments, hline]

/-! ## The parser and its specification -/

theorem selected_too_long {ws : List (List Byte)} (h : ∃ u ∈ ws.take (index + 1), room < u.length) :
    selected room ws index = none := by
  obtain ⟨u, hu, hlong⟩ := h
  fun_induction selected room ws index with
  | case1 index hi => cases hu
  | case2 index hi => rfl
  | case3 w index hi =>
      rw [List.take_succ_cons, List.take_nil, List.mem_singleton] at hu
      subst hu
      omega
  | case4 w index hi => rfl
  | case5 w w' ws hi =>
      rw [List.take_succ_cons, List.take_zero, List.mem_singleton] at hu
      subst hu
      omega
  | case6 w w' ws hi => rfl
  | case7 w w' ws index hi ih =>
      rw [List.take_succ_cons] at hu
      rcases List.mem_cons.mp hu with rfl | hu
      · omega
      · exact ih hu
  | case8 w w' ws index hi => rfl

/-- Where the code takes a segment that is not there. -/
def OneBehind (ws : List (List Byte)) (index : Nat) : Prop :=
  index = ws.length ∨ ws = [] ∧ index = 1

theorem selected_inside {ws : List (List Byte)}
    (hfit : ∀ u ∈ ws.take (index + 1), u.length ≤ room) (hi : index < ws.length) :
    selected room ws index = ws[index]? := by
  fun_induction selected room ws index with
  | case1 index _ => cases hi
  | case2 index _ => cases hi
  | case3 w index _ =>
      obtain rfl : index = 0 := Nat.lt_one_iff.mp hi
      rfl
  | case4 w index hno =>
      obtain rfl : index = 0 := Nat.lt_one_iff.mp hi
      exact absurd ⟨hfit w List.mem_cons_self, Nat.zero_le _⟩ hno
  | case5 w w' ws _ => rfl
  | case6 w w' ws hno => exact absurd (hfit w List.mem_cons_self) hno
  | case7 w w' ws index _ ih =>
      exact ih (fun u hu => hfit u (List.mem_cons_of_mem _ hu)) (Nat.lt_of_succ_lt_succ hi)
  | case8 w w' ws index hno => exact absurd (hfit w List.mem_cons_self) hno

theorem selected_behind {ws : List (List Byte)}
    (hfit : ∀ u ∈ ws.take (index + 1), u.length ≤ room) (hi : ws.length ≤ index) :
    (selected room ws index).isSome = true ↔ OneBehind ws index := by
  unfold OneBehind
  fun_induction selected room ws index with
  | case1 index h =>
      simp
      omega
  | case2 index h =>
      simp
      omega
  | case3 w index h =>
      simp at hi ⊢
      omega
  | case4 w index h =>
      have := hfit w List.mem_cons_self
      simp at hi ⊢
      omega
  | case5 w w' ws h => cases hi
  | case6 w w' ws h => cases hi
  | case7 w w' ws index h ih =>
      rw [ih (fun u hu => hfit u (List.mem_cons_of_mem _ hu)) (Nat.le_of_succ_le_succ hi)]
      simp
  | case8 w w' ws index hno => exact absurd (hfit w List.mem_cons_self) hno

/-- The array holds `w` and a NUL behind it. -/
def HoldsString (content : Nat → Byte) (w : List Byte) : Prop :=
  (∀ i, (hi : i < w.length) → content i = w[i]) ∧ content w.length = chNul

theorem holdsString_putString (w : List Byte) (content : Nat → Byte) :
    HoldsString (putString w content) w := by
  refine ⟨fun i hi => ?_, ?_⟩
  · rw [putString, if_pos hi, List.getElem?_eq_getElem hi]
    rfl
  · rw [putString, if_neg (Nat.lt_irrefl _), if_pos rfl]

/-- There is a segment `index`, and it and those before it fit. -/
def Selects (chars : List Byte) (index room : Nat) (w : List Byte) : Prop :=
  (segments chars)[index]? = some w ∧ ∀ u ∈ (segments chars).take (index + 1), u.length ≤ room

/-- What the parser is for. `content` has `room + 1` cells. -/
def ReadsSegment (chars : List Byte) (index room : Nat) (content : Nat → Byte) : Prop :=
  ∃ result content',
    readSegFromStr (some (chars ++ [chNul])) index (some content) (room + 1) =
      some (result, some content') ∧
    (∀ i, room + 1 ≤ i → content' i = content i) ∧
    (∀ w, Selects chars index room w → result = 0 ∧ HoldsString content' w) ∧
    ((¬ ∃ w, Selects chars index room w) → result = -1)

theorem Selects.word_eq {chars w w' : List Byte} (h : Selects chars index room w)
    (h' : Selects chars index room w') : w = w' :=
  Option.some.inj (h.1.symm.trans h'.1)

theorem Selects.selected {chars : List Byte} (h : Selects chars index room w) :
    selected room (segments chars) index = some w :=
  (selected_inside h.2 (List.getElem?_eq_some_iff.mp h.1).1).trans h.1

/-- The parser does what it is for when it selects a segment, and otherwise when it finds
none. -/
theorem readsSegment_iff {chars : List Byte} {content : Nat → Byte} :
    ReadsSegment chars index room content ↔
      (∃ w, Selects chars index room w) ∨ selected room (segments chars) index = none := by
  have heq : readSegFromStr (some (chars ++ [chNul])) index (some content) (room + 1) = _ :=
    readSegFromStr_eq (ended_append_nul chars) index room content
  rw [segments_append_nul] at heq
  constructor
  · rintro ⟨result, content', hread, -, -, hnone⟩
    rw [or_iff_not_imp_left]
    intro hno
    rw [heq] at hread
    cases hsel : selected room (segments chars) index with
    | none => rfl
    | some w =>
        rw [hsel] at hread
        have h₀ : (0 : Int) = result := congrArg Prod.fst (Option.some.inj hread)
        rw [hnone hno] at h₀
        cases h₀
  · intro h
    cases hsel : selected room (segments chars) index with
    | none =>
        rw [hsel] at heq
        refine ⟨-1, content, heq, fun _ _ => rfl, fun w hw => ?_, fun _ => rfl⟩
        rw [hw.selected] at hsel
        cases hsel
    | some w =>
        obtain ⟨w', hw⟩ : ∃ w', Selects chars index room w' := by
          rcases h with h | h
          · exact h
          · rw [hsel] at h
            cases h
        obtain rfl : w = w' := Option.some.inj (hsel.symm.trans hw.selected)
        rw [hsel] at heq
        have hlen : w.length ≤ room :=
          hw.2 w (List.mem_of_getElem? (by rw [List.getElem?_take_of_succ]; exact hw.1))
        refine ⟨0, _, heq, fun i hi => ?_, fun w' hw' => ?_, fun hno => (hno ⟨w, hw⟩).elim⟩
        · rw [putString, if_neg (by omega), if_neg (by omega)]
        · rw [hw'.word_eq hw]
          exact ⟨rfl, holdsString_putString w content⟩

/-- **The segment parser rejects a line that lacks one segment only when an earlier one is
too long**: the index it tests behind the loop has been decremented once more. -/
theorem readSegFromStr_reads_iff (chars : List Byte) (index room : Nat) (content : Nat → Byte) :
    ReadsSegment chars index room content ↔
      (∃ u ∈ (segments chars).take (index + 1), room < u.length) ∨
        index ≠ (segments chars).length ∧ ¬ (segments chars = [] ∧ index = 1) := by
  rw [readsSegment_iff]
  by_cases hlong : ∃ u ∈ (segments chars).take (index + 1), room < u.length
  · exact iff_of_true (Or.inr (selected_too_long hlong)) (Or.inl hlong)
  · have hfit : ∀ u ∈ (segments chars).take (index + 1), u.length ≤ room := fun u hu =>
      Nat.le_of_not_lt fun h => hlong ⟨u, hu, h⟩
    rw [or_iff_right hlong]
    by_cases hi : index < (segments chars).length
    · refine iff_of_true (Or.inl ⟨_, List.getElem?_eq_getElem hi, hfit⟩) ⟨by omega, ?_⟩
      rintro ⟨h, -⟩
      rw [h] at hi
      cases hi
    · have hbehind := selected_behind hfit (Nat.le_of_not_lt hi)
      have hno : ¬ ∃ w, Selects chars index room w := by
        rintro ⟨w, hw⟩
        exact hi (List.getElem?_eq_some_iff.mp hw.1).1
      rw [or_iff_right hno, ← Option.not_isSome_iff_eq_none, hbehind, OneBehind, not_or]

/-- An address without a user name: `"1.2.3.4"` has a segment number one. -/
theorem readSegFromStr_one_behind :
    ¬ ReadsSegment [49, 46, 50, 46, 51, 46, 52] 1 79 (fun _ => 0) := by
  intro h
  rcases readsSegment_iff.mp h with ⟨w, hw, -⟩ | h
  · revert hw
    decide +revert
  · revert h
    decide

end

end Midsm

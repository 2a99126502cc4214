import Midsm.Proofs.Segments

/-!
# The host file

`readHosts` takes a line of the host file, stores what the parser finds of an address
and of a name and counts a host, whatever the parser returned. The count is the number
of the lines, and the table is right when no line is blank or malformed and the lines
are no more than the table has entries.
-/

namespace Midsm

/-- The host that a line is about: an address and a user name that fit. -/
def hostOfLine (line : List Byte) : Option (List Byte × List Byte) :=
  match segments line with
  | address :: username :: _ =>
      if address.length < wordSize ∧ username.length < wordSize then some (address, username)
      else none
  | _ => none

def HostEntry.Holds (entry : HostEntry) (host : List Byte × List Byte) : Prop :=
  HoldsString entry.address host.1 ∧ HoldsString entry.username host.2

/-- What loading the file is for. -/
def LoadsHosts (lines : List (List Byte)) : Prop :=
  ∃ t, readHosts lines noHosts = some t ∧
    (∀ i, maxHostNum ≤ i → t.hosts i = noHosts.hosts i) ∧
    t.hostnum ≤ maxHostNum ∧
    t.hostnum = (lines.filterMap hostOfLine).length ∧
    ∀ i host, (lines.filterMap hostOfLine)[i]? = some host → (t.hosts i).Holds host

section

variable {line : List Byte} {lines : List (List Byte)} {host : List Byte × List Byte}
  {t : HostTable} {hosti i j : Nat}

theorem hostOfLine_selects (h : hostOfLine line = some host) :
    Selects line 0 79 host.1 ∧ Selects line 1 79 host.2 := by
  unfold hostOfLine at h
  unfold Selects
  split at h
  · next address username ws hseg =>
      split at h
      · next hlt =>
          obtain rfl := Option.some.inj h
          rw [hseg]
          simp only [wordSize] at hlt
          refine ⟨⟨rfl, fun u hu => ?_⟩, rfl, fun u hu => ?_⟩
          · simp at hu
            subst hu
            omega
          · simp at hu
            rcases hu with rfl | rfl <;> omega
      · cases h
  · cases h

/-- The parser returns, and has put the segment into the array if there is one. -/
theorem readSegFromStr_word (line : List Byte) (index : Nat) (content : Nat → Byte) :
    ∃ result content',
      readSegFromStr (some (line ++ [chNul])) index (some content) wordSize =
        some (result, some content') ∧
      ∀ w, Selects line index 79 w → HoldsString content' w := by
  have heq : readSegFromStr (some (line ++ [chNul])) index (some content) wordSize = _ :=
    readSegFromStr_eq (ended_append_nul line) index 79 content
  rw [segments_append_nul] at heq
  cases hsel : selected 79 (segments line) index with
  | none =>
      rw [hsel] at heq
      refine ⟨-1, content, heq, fun w hw => ?_⟩
      rw [hw.selected] at hsel
      cases hsel
  | some w =>
      rw [hsel] at heq
      refine ⟨0, _, heq, fun w' hw => ?_⟩
      obtain rfl : w = w' := Option.some.inj (hsel.symm.trans hw.selected)
      exact holdsString_putString w content

/-- One line: the entry behind the last one is written, and the line is counted. -/
theorem readHostsLoop_cons (line : List Byte) (lines : List (List Byte)) (hosti : Nat)
    (t : HostTable) :
    ∃ entry : HostEntry, (∀ host, hostOfLine line = some host → entry.Holds host) ∧
      readHostsLoop (line :: lines) hosti t =
        readHostsLoop lines (hosti + 1) ⟨upd t.hosts hosti entry, t.hostnum + 1⟩ := by
  obtain ⟨r, address, haddr, ha⟩ := readSegFromStr_word line 0 (t.hosts hosti).address
  obtain ⟨r', username, hname, hu⟩ := readSegFromStr_word line 1 (t.hosts hosti).username
  refine ⟨⟨address, username⟩, fun host h => ?_, ?_⟩
  · exact ⟨ha _ (hostOfLine_selects h).1, hu _ (hostOfLine_selects h).2⟩
  · have haddr' : readAddrFromStr (some (line ++ [chNul])) (some (t.hosts hosti).address)
        wordSize = some (r, some address) := haddr
    rw [readHostsLoop, haddr']
    dsimp only [HostTable.setHost]
    rw [upd_self]
    have hname' : readNameFromStr (some (line ++ [chNul])) (some (t.hosts hosti).username)
        wordSize = some (r', some username) := hname
    rw [hname']
    dsimp only
    rw [upd_upd]

/-- The whole file. -/
theorem readHostsLoop_spec (lines : List (List Byte)) (hosti : Nat) (t : HostTable) :
    ∃ t', readHostsLoop lines hosti t = some t' ∧
    t'.hostnum = t.hostnum + lines.length ∧
    (∀ i, i < hosti ∨ hosti + lines.length ≤ i → t'.hosts i = t.hosts i) ∧
    ∀ j line host, lines[j]? = some line → hostOfLine line = some host →
      (t'.hosts (hosti + j)).Holds host := by
  induction lines generalizing hosti t with
  | nil => exact ⟨t, rfl, (Int.add_zero _).symm, fun _ _ => rfl, fun j line host h => by cases h⟩
  | cons line lines ih =>
      obtain ⟨entry, hentry, heq⟩ := readHostsLoop_cons line lines hosti t
      obtain ⟨t', hrun, hnum, hout, hin⟩ :=
        ih (hosti + 1) ⟨upd t.hosts hosti entry, t.hostnum + 1⟩
      rw [← heq] at hrun
      refine ⟨t', hrun, ?_, fun i hi => ?_, fun j line' host hj hhost => ?_⟩
      · rw [hnum, List.length_cons]
        push_cast
        omega
      · rw [List.length_cons] at hi
        rw [hout i (by omega)]
        exact upd_ne (by omega)
      · cases j with
        | zero =>
            obtain rfl : line = line' := Option.some.inj hj
            rw [hout _ (Or.inl (by omega)), Nat.add_zero]
            dsimp only
            rw [upd_self]
            exact hentry host hhost
        | succ j =>
            rw [← Nat.succ_add_eq_add_succ]
            exact hin j line' host hj hhost

/-- In a file of well-formed lines the hosts are numbered as the lines. -/
theorem getElem?_hosts (hall : ∀ line ∈ lines, (hostOfLine line).isSome = true)
    (hi : (lines.filterMap hostOfLine)[i]? = some host) :
    ∃ line, lines[i]? = some line ∧ hostOfLine line = some host := by
  induction lines generalizing i with
  | nil => cases hi
  | cons line lines ih =>
      obtain ⟨first, hfirst⟩ := Option.isSome_iff_exists.mp (hall line List.mem_cons_self)
      rw [List.filterMap_cons_some hfirst] at hi
      cases i with
      | zero =>
          obtain rfl : first = host := Option.some.inj hi
          exact ⟨line, rfl, hfirst⟩
      | succ i => exact ih (fun l hl => hall l (List.mem_cons_of_mem _ hl)) hi

/-- **The host table is right exactly when every line of the file names a host and the
table has an entry for each.** -/
theorem readHosts_loads_iff (lines : List (List Byte)) :
    LoadsHosts lines ↔
      lines.length ≤ maxHostNum ∧ ∀ line ∈ lines, (hostOfLine line).isSome = true := by
  obtain ⟨t, hrun, hnum, hout, hin⟩ := readHostsLoop_spec lines 0 noHosts
  have hcount : t.hostnum = lines.length := hnum.trans (Int.zero_add _)
  constructor
  · rintro ⟨t', hrun', -, hmax, hlen, -⟩
    obtain rfl : t = t' := Option.some.inj (hrun.symm.trans hrun')
    rw [hcount] at hmax hlen
    exact ⟨by exact_mod_cast hmax,
      List.filterMap_length_eq_length.mp (Int.ofNat_inj.mp hlen.symm)⟩
  · rintro ⟨hmax, hall⟩
    refine ⟨t, hrun, fun i hi => hout i (Or.inr (by omega)), by omega, ?_, fun i host hi => ?_⟩
    · rw [hcount, List.filterMap_length_eq_length.mpr hall]
    · obtain ⟨line, hline, hhost⟩ := getElem?_hosts hall hi
      have := hin i line host hline hhost
      rwa [Nat.zero_add] at this

/-- A blank line counts as a host. -/
theorem readHosts_blank_line : ¬ LoadsHosts [[chNewline]] := by
  rintro ⟨t, hrun, -, -, hnum, -⟩
  obtain ⟨t', hrun', hnum', -⟩ := readHostsLoop_spec [[chNewline]] 0 noHosts
  obtain rfl : t = t' := Option.some.inj (hrun.symm.trans hrun')
  rw [hnum'] at hnum
  revert hnum
  decide

end

end Midsm

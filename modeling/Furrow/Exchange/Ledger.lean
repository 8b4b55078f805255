import Furrow.Exchange.Frame

set_option relaxedAutoImplicit false
set_option autoImplicit false

/-!
# The export ledger

The identifiers that were published to a store, one in a line (`exchange/ledger.rs`).  An append may
be cut short by a crash, and later ones continue after the torn text.

## Main definitions

* `Furrow.Ledger.append`, `Furrow.Ledger.recorded` — the ledger.
* `Furrow.Ledger.Attempt`, `Furrow.Ledger.fileAfter` — appends that may be cut short.

## Main results

* `Furrow.Ledger.mem_recorded_of_intact` — a line that was written whole, and not after torn text,
  is read back.
* `Furrow.Ledger.recorded_of_separated` — if a whole line comes between two appends that are cut
  short, only what was asked for is read back.
-/

namespace Furrow

namespace Ledger

/-- The end of a line. -/
def newline : Byte := 10

/-- A line without the carriage return before its end; the line is given from its end. -/
def stripReturn : Bytes → Bytes
  | 13 :: line => line
  | line => line

/-- The lines of a text, with the line that is read so far, from its end. -/
def linesFrom : Bytes → Bytes → List Bytes
  | line, [] => if line = [] then [] else [line.reverse]
  | line, b :: rest =>
    if b = newline then (stripReturn line).reverse :: linesFrom [] rest
      else linesFrom (b :: line) rest

/-- `str::lines` -/
def lines (text : Bytes) : List Bytes := linesFrom [] text

/-- The text of some identifiers. -/
def linesOf (rids : List ObjectId) : Bytes := rids.flatMap fun rid => idHex rid ++ [newline]

/-- The identifiers that are read from a ledger, if it is there (`recorded`). -/
def recorded (file : Option Bytes) : List ObjectId := (lines (file.getD [])).filterMap parseRid

/-- An append: the identifiers, and how many bytes of their text reach the file. -/
structure Attempt where
  rids : List ObjectId
  written : ℕ
deriving DecidableEq

/-- The append does not come to its end. -/
def Attempt.cut (a : Attempt) : Bool := a.written < (linesOf a.rids).length

/-- `append`, as far as it comes.  Without identifiers the file is left alone. -/
def append (file : Option Bytes) (a : Attempt) : Option Bytes :=
  if a.rids = [] then file else some (file.getD [] ++ (linesOf a.rids).take a.written)

/-- The ledger after some appends. -/
def fileAfter (attempts : List Attempt) : Option Bytes := attempts.foldl append none

/-! ## Lines -/

/-- An identifier is written without a newline. -/
theorem idHex_ne_newline (rid : ObjectId) : newline ∉ idHex rid := by
  have hdigit : ∀ n < 16, hexDigit n ≠ newline := by decide
  intro hmem
  simp only [idHex, hexEncode, List.mem_flatMap, List.mem_cons, List.not_mem_nil, or_false] at hmem
  obtain ⟨c, -, h | h⟩ := hmem
  · exact hdigit _ (by omega) h.symm
  · exact hdigit _ (by omega) h.symm

/-- A carriage return is not a digit. -/
theorem idHex_ne_return (rid : ObjectId) : (13 : Byte) ∉ idHex rid := by
  have hdigit : ∀ n < 16, hexDigit n ≠ 13 := by decide
  intro hmem
  simp only [idHex, hexEncode, List.mem_flatMap, List.mem_cons, List.not_mem_nil, or_false] at hmem
  obtain ⟨c, -, h | h⟩ := hmem
  · exact hdigit _ (by omega) h.symm
  · exact hdigit _ (by omega) h.symm

/-- A line without a carriage return is left as it is. -/
theorem stripReturn_of_notMem {line : Bytes} (h : (13 : Byte) ∉ line) :
    stripReturn line = line := by
  cases line with
  | nil => rfl
  | cons b line =>
    unfold stripReturn
    split
    · next heq =>
      obtain ⟨rfl, -⟩ := List.cons.inj heq
      exact absurd List.mem_cons_self h
    · rfl

/-- A line that is ended. -/
theorem linesFrom_of_notMem {line x : Bytes} (hx : newline ∉ x) (rest : Bytes) :
    linesFrom line (x ++ newline :: rest) =
      (stripReturn (x.reverse ++ line)).reverse :: linesFrom [] rest := by
  induction x generalizing line with
  | nil => simp [linesFrom]
  | cons b x ih =>
    have hb : b ≠ newline := fun hb => hx (hb ▸ List.mem_cons_self)
    rw [List.cons_append, linesFrom, if_neg hb, ih fun h => hx (List.mem_cons_of_mem b h)]
    simp

/-- A line that ends. -/
theorem lines_append {x : Bytes} (hx : newline ∉ x) (hreturn : (13 : Byte) ∉ x) (rest : Bytes) :
    lines (x ++ newline :: rest) = x :: lines rest := by
  have hreverse : (13 : Byte) ∉ x.reverse := fun h => hreturn (List.mem_reverse.mp h)
  unfold lines
  rw [linesFrom_of_notMem hx, List.append_nil, stripReturn_of_notMem hreverse, List.reverse_reverse]

/-- A line that is not ended. -/
theorem linesFrom_of_open {line x : Bytes} (hx : newline ∉ x) :
    linesFrom line x = if x.reverse ++ line = [] then [] else [line.reverse ++ x] := by
  induction x generalizing line with
  | nil => simp [linesFrom]
  | cons b x ih =>
    have hb : b ≠ newline := fun hb => hx (hb ▸ List.mem_cons_self)
    rw [linesFrom, if_neg hb, ih fun h => hx (List.mem_cons_of_mem b h)]
    simp

/-- A line that does not end. -/
theorem lines_of_open {x : Bytes} (hx : newline ∉ x) : lines x = if x = [] then [] else [x] := by
  unfold lines
  rw [linesFrom_of_open hx]
  simp

/-- What is decoded has two digits a byte. -/
theorem length_of_hexDecode : ∀ x bytes :
    Bytes, hexDecode x = some bytes → x.length = 2 * bytes.length
  | [], bytes, h => by
    rw [← Option.some.inj h]
    rfl
  | [a], bytes, h => absurd h (by simp [hexDecode])
  | a :: b :: rest, bytes, h => by
    rw [hexDecode] at h
    split at h
    · next y z tail hy hz htail =>
      rw [← Option.some.inj h, List.length_cons, List.length_cons,
        length_of_hexDecode rest tail htail, List.length_cons]
      omega
    · exact absurd h (by simp)

/-- What is read is 64 characters long. -/
theorem length_of_parseRid {x : Bytes} {rid : ObjectId} (h : parseRid x = some rid) :
    x.length = 64 := by
  unfold parseRid at h
  split at h
  · exact absurd h (by simp)
  · next bytes hbytes =>
    split_ifs at h with hlen
    rw [length_of_hexDecode x bytes hbytes, hlen]

/-- The lines of identifiers, one after the other. -/
theorem linesOf_cons (rid : ObjectId) (rids : List ObjectId) :
    linesOf (rid :: rids) = idHex rid ++ newline :: linesOf rids := by
  simp [linesOf]

/-- Every line has 65 bytes. -/
theorem length_linesOf (rids : List ObjectId) : (linesOf rids).length = 65 * rids.length := by
  induction rids with
  | nil => rfl
  | cons rid rids ih =>
    rw [linesOf_cons, List.length_append, List.length_cons, length_idHex, ih, List.length_cons]
    omega

/-- The lines of whole identifiers come first. -/
theorem lines_linesOf_append (rids : List ObjectId) (rest : Bytes) :
    lines (linesOf rids ++ rest) = rids.map idHex ++ lines rest := by
  induction rids with
  | nil => rfl
  | cons rid rids ih =>
    rw [linesOf_cons, List.append_assoc, List.cons_append,
      lines_append (idHex_ne_newline rid) (idHex_ne_return rid), ih, List.map_cons,
        List.cons_append]

/-- A cut of the text of identifiers: some whole lines, and the beginning of one more. -/
theorem take_linesOf (rids : List ObjectId) (n : ℕ) :
    ∃ whole rest, rids = whole ++ rest ∧ whole.length = min (n / 65) rids.length ∧
      ((linesOf rids).take n = linesOf whole ∨
        ∃ rid after, rest = rid :: after ∧
          (linesOf rids).take n = linesOf whole ++ (idHex rid).take (n % 65)) := by
  induction rids generalizing n with
  | nil => exact ⟨[], [], rfl, by simp, Or.inl (by simp [linesOf])⟩
  | cons rid rids ih =>
    have hlen : (idHex rid ++ [newline]).length = 65 := by
      rw [List.length_append, length_idHex]
      rfl
    have hsplit : linesOf (rid :: rids) = (idHex rid ++ [newline]) ++ linesOf rids := by
      rw [linesOf_cons, List.append_assoc]
      rfl
    by_cases hn : n < 65
    · refine ⟨[], rid :: rids, rfl, by simp [Nat.div_eq_of_lt hn], Or.inr ⟨rid, rids, rfl, ?_⟩⟩
      rw [Nat.mod_eq_of_lt hn, linesOf_cons,
        List.take_append_of_le_length (by rw [length_idHex]; omega)]
      rfl
    · obtain ⟨whole, rest, rfl, hwhole, htake⟩ := ih (n - 65)
      have hdiv : n / 65 = (n - 65) / 65 + 1 := by omega
      have hmod : (n - 65) % 65 = n % 65 := by omega
      have htake' : (linesOf (rid :: (whole ++ rest))).take n =
          (idHex rid ++ [newline]) ++ (linesOf (whole ++ rest)).take (n - 65) := by
        rw [hsplit, List.take_append, hlen, List.take_of_length_le (by omega)]
      have hcons :
          ∀ x, linesOf (rid :: whole) ++ x = (idHex rid ++ [newline]) ++ (linesOf whole ++ x) := by
        intro x
        rw [linesOf_cons]
        simp
      refine ⟨rid :: whole, rest, rfl, ?_, ?_⟩
      · rw [List.length_cons, hwhole, hdiv, List.length_cons]
        omega
      · rcases htake with htake | ⟨last, after, hrest, htake⟩
        · left
          rw [htake', htake]
          simpa using (hcons []).symm
        · right
          refine ⟨last, after, hrest, ?_⟩
          rw [htake', htake, hmod, hcons]

/-! ## Lines that are written whole -/

/-- The text ends with a line. -/
def EndsLine (text : Bytes) : Prop := text = [] ∨ ∃ before, text = before ++ [newline]

/-- After a line that ends, the lines go on as if the text began there. -/
theorem lines_append_of_endsLine {text : Bytes} (h : EndsLine text) (rest : Bytes) :
    lines (text ++ rest) = lines text ++ lines rest := by
  have hfrom : ∀ (x line : Bytes), linesFrom line (x ++ newline :: rest) =
      linesFrom line (x ++ [newline]) ++ linesFrom [] rest := by
    intro x
    induction x with
    | nil => simp [linesFrom]
    | cons b x ih =>
      intro line
      rw [List.cons_append, linesFrom, List.cons_append, linesFrom]
      split_ifs
      · rw [ih, List.cons_append]
      · exact ih _
  rcases h with rfl | ⟨before, rfl⟩
  · rfl
  · unfold lines
    rw [List.append_assoc, List.singleton_append, hfrom]

/-- Whole lines end as they should. -/
theorem endsLine_append_linesOf {text : Bytes} (h : EndsLine text) (rids : List ObjectId) :
    EndsLine (text ++ linesOf rids) := by
  rcases List.eq_nil_or_concat rids with rfl | ⟨before, rid, rfl⟩
  · simpa [linesOf] using h
  · exact Or.inr ⟨text ++ linesOf before ++ idHex rid, by simp [linesOf]⟩

/-! ## Appends -/

/-- The bytes of an append that reach the file. -/
def Attempt.text (a : Attempt) : Bytes := (linesOf a.rids).take a.written

/-- An attempt writes at the end of the file. -/
theorem getD_append (file : Option Bytes) (a : Attempt) :
    (append file a).getD [] = file.getD [] ++ a.text := by
  unfold append Attempt.text
  split_ifs with hrids
  · simp [hrids, linesOf]
  · rfl

/-- What is in the file after some appends. -/
theorem getD_fileAfter (attempts : List Attempt) :
    (fileAfter attempts).getD [] = attempts.flatMap Attempt.text := by
  have hfold : ∀ (attempts : List Attempt) (file : Option Bytes),
      (attempts.foldl append file).getD [] = file.getD [] ++ attempts.flatMap Attempt.text := by
    intro attempts
    induction attempts with
    | nil => simp
    | cons a attempts ih =>
      intro file
      rw [List.foldl_cons, ih, getD_append, List.flatMap_cons, List.append_assoc]
  exact hfold attempts none

/-- **A line that was written whole is read back**, unless it goes on after torn text. -/
theorem mem_recorded_of_intact {before after : List Attempt} {a : Attempt} {j : ℕ} {rid : ObjectId}
    (hrid : a.rids[j]? = some rid) (hwritten : 65 * (j + 1) ≤ a.written)
    (hstart : j = 0 → EndsLine ((fileAfter before).getD [])) :
    rid ∈ recorded (fileAfter (before ++ a :: after)) := by
  -- Before the lines that are looked at, a line ends.
  have hread : ∀ (text more : Bytes) (whole : List ObjectId), EndsLine text → rid ∈ whole →
      rid ∈ (lines (text ++ (linesOf whole ++ more))).filterMap parseRid := by
    intro text more whole htext hmem
    rw [lines_append_of_endsLine htext, lines_linesOf_append]
    refine List.mem_filterMap.mpr ⟨idHex rid, ?_, parseRid_idHex rid⟩
    exact List.mem_append_right _ (List.mem_append_left _ (List.mem_map_of_mem hmem))
  obtain ⟨whole, rest, hrids, hwhole, htake⟩ := take_linesOf a.rids a.written
  obtain ⟨tail, htail⟩ : ∃ tail, a.text = linesOf whole ++ tail := by
    rcases htake with htake | ⟨last, afterRest, -, htake⟩
    · exact ⟨[], by rw [List.append_nil]; exact htake⟩
    · exact ⟨_, htake⟩
  obtain ⟨hj, -⟩ := List.getElem?_eq_some_iff.mp hrid
  have hjwhole : j < whole.length := by omega
  have hget : whole[j]? = some rid := by
    rw [hrids, List.getElem?_append_left hjwhole] at hrid
    exact hrid
  unfold recorded
  rw [getD_fileAfter, List.flatMap_append, List.flatMap_cons, htail]
  rw [getD_fileAfter] at hstart
  cases j with
  | zero =>
    rw [List.append_assoc (linesOf whole)]
    exact hread _ _ whole (hstart rfl) (List.mem_of_getElem? hget)
  | succ j =>
    cases whole with
    | nil => exact absurd hjwhole (by simp)
    | cons first whole =>
      rw [List.getElem?_cons_succ] at hget
      have hsplit : before.flatMap Attempt.text ++ (linesOf (first :: whole) ++ tail ++
          after.flatMap Attempt.text) = (before.flatMap Attempt.text ++ idHex first ++ [newline]) ++
            (linesOf whole ++ (tail ++ after.flatMap Attempt.text)) := by
        rw [linesOf_cons]
        simp
      rw [hsplit]
      exact hread _ _ whole (Or.inr ⟨_, rfl⟩) (List.mem_of_getElem? hget)

/-! ## Torn text -/

/-- Between two appends that are cut short, one comes to its end that has an identifier. -/
def Separated : Bool → List Attempt → Prop
  | _, [] => True
  | torn, a :: attempts =>
    if a.rids = [] then Separated torn attempts
    else ¬ (torn = true ∧ a.cut = true) ∧ Separated a.cut attempts

/-- The lines of a text that end are not read as anything that was not asked for; what follows them
is the beginning of a line that was, and only after an append that was cut short. -/
structure Settled (asked : Set ObjectId) (torn : Bool) (done tail : Bytes) : Prop where
  ends : EndsLine done
  sound : ∀ x ∈ lines done, ∀ rid, parseRid x = some rid → rid ∈ asked
  tail : tail = [] ∨ torn = true ∧ ∃ rid ∈ asked, ∃ k, tail = (idHex rid).take k

variable {asked : Set ObjectId} {torn : Bool} {done tail : Bytes}

/-- The open line has no newline. -/
theorem Settled.newline_notMem (h : Settled asked torn done tail) : newline ∉ tail := by
  rcases h.tail with rfl | ⟨-, rid, -, k, rfl⟩
  · exact List.not_mem_nil
  · exact fun hmem => idHex_ne_newline rid (List.mem_of_mem_take hmem)

/-- The open line has no carriage return. -/
theorem Settled.return_notMem (h : Settled asked torn done tail) : (13 : Byte) ∉ tail := by
  rcases h.tail with rfl | ⟨-, rid, -, k, rfl⟩
  · exact List.not_mem_nil
  · exact fun hmem => idHex_ne_return rid (List.mem_of_mem_take hmem)

/-- Whole lines of what was asked for keep the text sound. -/
theorem sound_append_linesOf (hends : EndsLine done)
    (hsound : ∀ x ∈ lines done, ∀ rid, parseRid x = some rid → rid ∈ asked) {rids : List ObjectId}
    (hrids : ∀ rid ∈ rids, rid ∈ asked) :
    ∀ x ∈ lines (done ++ linesOf rids), ∀ rid, parseRid x = some rid → rid ∈ asked := by
  have hlines : lines (done ++ linesOf rids) = lines done ++ rids.map idHex := by
    have hwhole := lines_linesOf_append rids []
    rw [List.append_nil] at hwhole
    rw [lines_append_of_endsLine hends, hwhole]
    simp [lines, linesFrom]
  intro x hx rid hrid
  rw [hlines] at hx
  rcases List.mem_append.mp hx with hx | hx
  · exact hsound x hx rid hrid
  · obtain ⟨other, hother, rfl⟩ := List.mem_map.mp hx
    rw [parseRid_idHex] at hrid
    rw [← Option.some.inj hrid]
    exact hrids other hother

/-- **One more append.**  If the text before it is torn, it must come to its end. -/
theorem Settled.append (h : Settled asked torn done tail) {a : Attempt} (hne : a.rids ≠ [])
    (hasked : ∀ rid ∈ a.rids, rid ∈ asked) (hcut : ¬ (torn = true ∧ a.cut = true)) :
    ∃ done' tail', done ++ tail ++ a.text = done' ++ tail' ∧ Settled asked a.cut done' tail' := by
  obtain ⟨whole, rest, hrids, hwhole, htake⟩ := take_linesOf a.rids a.written
  have hlen := length_linesOf a.rids
  rcases h.tail with rfl | ⟨rfl, old, hold, k, rfl⟩
  · have hsub : ∀ rid ∈ whole, rid ∈ asked := fun rid hrid =>
      hasked rid (hrids ▸ List.mem_append_left _ hrid)
    rw [List.append_nil]
    have hends := endsLine_append_linesOf h.ends whole
    have hsound := sound_append_linesOf h.ends h.sound hsub
    rcases htake with htake | ⟨last, after, hrest, htake⟩
    · exact ⟨done ++ linesOf whole, [], by rw [List.append_nil]; exact congrArg _ htake,
        hends, hsound, Or.inl rfl⟩
    · refine ⟨done ++ linesOf whole, (idHex last).take (a.written % 65), ?_, hends,
        hsound, Or.inr ⟨?_, last, hasked last (by rw [hrids, hrest]; simp), _, rfl⟩⟩
      · rw [Attempt.text, htake, List.append_assoc]
      · -- Not all lines are whole.
        have hmore : whole.length < a.rids.length := by
          rw [hrids, hrest, List.length_append, List.length_cons]
          omega
        refine decide_eq_true ?_
        rw [hlen]
        omega
  · have hwritten : ¬ a.cut = true := fun hc => hcut ⟨rfl, hc⟩
    have htext : a.text = linesOf a.rids := by
      refine List.take_of_length_le ?_
      simpa [Attempt.cut] using hwritten
    obtain ⟨first, more, hfirst⟩ := List.exists_cons_of_ne_nil hne
    have hnew : newline ∉ (idHex old).take k ++ idHex first := by
      intro hmem
      rcases List.mem_append.mp hmem with hmem | hmem
      · exact h.newline_notMem hmem
      · exact idHex_ne_newline first hmem
    have hreturn : (13 : Byte) ∉ (idHex old).take k ++ idHex first := by
      intro hmem
      rcases List.mem_append.mp hmem with hmem | hmem
      · exact h.return_notMem hmem
      · exact idHex_ne_return first hmem
    -- The torn text joins the first line.
    have hjoined : lines (done ++ ((idHex old).take k ++ idHex first ++ [newline])) =
        lines done ++ [(idHex old).take k ++ idHex first] := by
      rw [lines_append_of_endsLine h.ends, lines_append hnew hreturn]
      simp [lines, linesFrom]
    have hsound : ∀ x ∈ lines (done ++ ((idHex old).take k ++ idHex first ++ [newline])),
        ∀ rid, parseRid x = some rid → rid ∈ asked := by
      intro x hx rid hrid
      rw [hjoined] at hx
      rcases List.mem_append.mp hx with hx | hx
      · exact h.sound x hx rid hrid
      · rw [List.mem_singleton.mp hx] at hrid
        by_cases hk : (idHex old).take k = []
        · rw [hk, List.nil_append, parseRid_idHex] at hrid
          rw [← Option.some.inj hrid]
          exact hasked first (hfirst ▸ List.mem_cons_self)
        · have hlength := length_of_parseRid hrid
          have hpos := List.length_pos_iff.mpr hk
          rw [List.length_append, length_idHex] at hlength
          omega
    have hends : EndsLine (done ++ ((idHex old).take k ++ idHex first ++ [newline])) :=
      Or.inr ⟨done ++ ((idHex old).take k ++ idHex first), by simp⟩
    refine ⟨done ++ ((idHex old).take k ++ idHex first ++ [newline]) ++ linesOf more, [], ?_,
      endsLine_append_linesOf hends more, sound_append_linesOf hends hsound fun rid hrid =>
        hasked rid (hfirst ▸ List.mem_cons_of_mem _ hrid), Or.inl rfl⟩
    rw [htext, hfirst, linesOf_cons]
    simp

/-- What is read from a settled text was asked for. -/
theorem Settled.recorded (h : Settled asked torn done tail) {rid : ObjectId}
    (hrid : rid ∈ (lines (done ++ tail)).filterMap parseRid) : rid ∈ asked := by
  obtain ⟨x, hx, hparse⟩ := List.mem_filterMap.mp hrid
  rw [lines_append_of_endsLine h.ends, lines_of_open h.newline_notMem] at hx
  rcases List.mem_append.mp hx with hx | hx
  · exact h.sound x hx rid hparse
  · split_ifs at hx with htail
    · exact absurd hx List.not_mem_nil
    · rw [List.mem_singleton.mp hx] at hparse
      rcases h.tail with hnil | ⟨-, old, hold, k, rfl⟩
      · exact absurd hnil htail
      · -- Only the whole line is long enough.
        have hlength := length_of_parseRid hparse
        rw [List.length_take, length_idHex] at hlength
        rw [List.take_of_length_le (by rw [length_idHex]; omega), parseRid_idHex] at hparse
        rw [← Option.some.inj hparse]
        exact hold

/-- After separated attempts, every identifier that is read was asked for. -/
theorem Settled.run {attempts : List Attempt} (h : Settled asked torn done tail)
    (hseparated : Separated torn attempts) (hasked : ∀ a ∈ attempts, ∀ rid ∈ a.rids, rid ∈ asked)
    {rid : ObjectId}
    (hrid : rid ∈ (lines (done ++ tail ++ attempts.flatMap Attempt.text)).filterMap parseRid) :
    rid ∈ asked := by
  induction attempts generalizing torn done tail with
  | nil =>
    rw [List.flatMap_nil, List.append_nil] at hrid
    exact h.recorded hrid
  | cons a attempts ih =>
    obtain ⟨ha, hrest⟩ := List.forall_mem_cons.mp hasked
    rw [List.flatMap_cons, ← List.append_assoc] at hrid
    unfold Separated at hseparated
    split_ifs at hseparated with hne
    · have htext : a.text = [] := by simp [Attempt.text, hne, linesOf]
      rw [htext, List.append_nil] at hrid
      exact ih h hseparated hrest hrid
    · obtain ⟨done', tail', heq, hsettled⟩ := h.append hne ha hseparated.1
      rw [heq] at hrid
      exact ih hsettled hseparated.2 hrest hrid

/-- **The ledger does not claim too much**: if a whole append comes between any two that are cut
short, all that is read back was asked for, and every line that was written whole and not after torn
text is read back. -/
theorem recorded_of_separated (attempts : List Attempt) (h : Separated false attempts) :
    (∀ rid ∈ recorded (fileAfter attempts), ∃ a ∈ attempts, rid ∈ a.rids) ∧
      ∀ before a after j rid, attempts = before ++ a :: after → a.rids[j]? = some rid →
        65 * (j + 1) ≤ a.written → (j = 0 → EndsLine ((fileAfter before).getD [])) →
        rid ∈ recorded (fileAfter attempts) := by
  constructor
  · intro rid hrid
    have hstart : Settled {rid | ∃ a ∈ attempts, rid ∈ a.rids} false [] [] :=
      ⟨Or.inl rfl, by simp [lines, linesFrom], Or.inl rfl⟩
    unfold recorded at hrid
    rw [getD_fileAfter] at hrid
    exact hstart.run h (fun a ha rid hrid => ⟨a, ha, hrid⟩) hrid
  · intro before a after j rid heq hrid hwritten hends
    rw [heq]
    exact mem_recorded_of_intact hrid hwritten hends

/-- A line that is cut in its middle, and the next append. -/
theorem recorded_of_separated_torn :
    recorded
      (fileAfter [⟨[.fill 1, .fill 2], 100⟩, ⟨[.fill 3, .fill 4], 130⟩]) = [.fill 1, .fill 4] ∧
      ∀ rid ∈ recorded (fileAfter [⟨[.fill 1, .fill 2], 100⟩, ⟨[.fill 3, .fill 4], 130⟩]),
        ∃ a ∈ [(⟨[.fill 1, .fill 2], 100⟩ : Attempt), ⟨[.fill 3, .fill 4], 130⟩], rid ∈ a.rids :=
  ⟨by decide,
    (recorded_of_separated _ (by simp [Separated, Attempt.cut, length_linesOf])).1⟩

/-- Two lines that are cut in the middle, with an append of nothing between them: their halves are
read as an identifier that nobody asked for. -/
theorem recorded_of_halves :
    ([(⟨[.fill 1], 32⟩ : Attempt), ⟨[], 0⟩, ⟨[.fill 2], 32⟩].IsChain fun a b =>
        ¬ (a.cut = true ∧ b.cut = true)) ∧
      ∃ rid ∈ recorded (fileAfter [⟨[.fill 1], 32⟩, ⟨[], 0⟩, ⟨[.fill 2], 32⟩]),
        ∀ a ∈ [(⟨[.fill 1], 32⟩ : Attempt), ⟨[], 0⟩, ⟨[.fill 2], 32⟩], rid ∉ a.rids := by
  decide

end Ledger

end Furrow

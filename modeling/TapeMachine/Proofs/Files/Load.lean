import TapeMachine.Files
import TapeMachine.Proofs.Encoding.Utf8
import TapeMachine.Proofs.Encoding.WellFormed

/-! Loading what was saved.

A file with a text in UTF-8 is loaded as this text with its line ends unified, and a file
with bytes that are no UTF-8 is not loaded at all (`Files.load_saved`). Unifying line ends in
one pass comes to the same as replacing first the pairs of a carriage return and a line feed
and then the carriage returns that remain (`Text.unifyLineEnds_eq`). -/
namespace TapeMachine

variable {t path : Text} {files : Files} {bytes : Bytes}

namespace Text

/-- A line feed for every carriage return together with the line feed after it. -/
def replaceCrLf : Text → Text
  | [] => []
  | '\r' :: '\n' :: rest => '\n' :: replaceCrLf rest
  | c :: rest => c :: replaceCrLf rest

/-- A line feed for every carriage return. -/
def replaceCr (t : Text) : Text := t.map fun c => if c = '\r' then '\n' else c

theorem unifyLineEnds_eq (t : Text) : unifyLineEnds t = replaceCr (replaceCrLf t) := by
  induction t using unifyLineEnds.induct with
  | case1 => rfl
  | case2 rest ih =>
    rw [unifyLineEnds, ih]
    rfl
  | case3 rest hpair ih =>
    rw [unifyLineEnds, ih, replaceCrLf]
    · rfl
    · exact fun rest' _ heq => hpair rest' heq
    · exact hpair
  | case4 c rest hpair hc ih =>
    have hkept : (if c = '\r' then '\n' else c) = c := if_neg hc
    rw [unifyLineEnds, ih, replaceCrLf, replaceCr, replaceCr, List.map_cons, hkept]
    · exact hpair
    · exact hpair
    · exact hc

/-- Only carriage returns are in need of it. -/
theorem unifyLineEnds_eq_self (h : '\r' ∉ t) : unifyLineEnds t = t := by
  induction t with
  | nil => rfl
  | cons c t ih =>
    have hc : c ≠ '\r' := by
      rintro rfl
      exact h List.mem_cons_self
    have ht := ih fun hr => h (List.mem_cons_of_mem c hr)
    rw [unifyLineEnds, ht]
    · exact fun rest hcr _ => hc hcr
    · exact hc

theorem not_mem_replaceCr (t : Text) : '\r' ∉ replaceCr t := by
  rw [replaceCr, List.mem_map]
  rintro ⟨c, -, hc⟩
  split at hc
  next => cases hc
  next hne => exact hne hc

end Text

namespace Files

/-- A file that is there is decoded as UTF-8. -/
theorem load_utf8 (hfile : files (Path.ofText path) = .ok bytes) (hnull : '\x00' ∉ path) :
    files.load path "utf-8".toList =
      match Utf8.decode bytes with
      | .error m => .error (.malformed (Path.ofText path) (.utf8 false) m)
      | .ok text => .ok (Text.unifyLineEnds text) := by
  have hcodec : Codec.ofName? "utf-8".toList = some (.utf8 false) := by decide
  rw [load, if_neg hnull]
  simp only [hfile, hcodec]
  rfl

theorem load_encode (hfile : files (Path.ofText path) = .ok (Utf8.encode t))
    (hnull : '\x00' ∉ path) : files.load path "utf-8".toList = .ok (Text.unifyLineEnds t) := by
  rw [load_utf8 hfile hnull, Utf8.decode_encode]

/-- A text that was saved in UTF-8 is loaded with a line feed for every line end, which is the
text itself if there is no carriage return in it, and saving and loading it once more changes
nothing. Bytes that are no UTF-8 are loaded as no text, with an error about the file, and only
these are. -/
theorem load_saved (hfile : files (Path.ofText path) = .ok bytes) (hnull : '\x00' ∉ path) :
    (∀ t, bytes = Utf8.encode t →
      files.load path "utf-8".toList = .ok (Text.replaceCr (Text.replaceCrLf t)) ∧
      ('\r' ∉ t → files.load path "utf-8".toList = .ok t) ∧
      ∀ files' : Files,
        files' (Path.ofText path) = .ok (Utf8.encode (Text.replaceCr (Text.replaceCrLf t))) →
          files'.load path "utf-8".toList = files.load path "utf-8".toList) ∧
    (Utf8.WellFormed bytes ↔ ∃ t, files.load path "utf-8".toList = .ok t) ∧
    (¬ Utf8.WellFormed bytes → ∃ m, files.load path "utf-8".toList =
      .error (.malformed (Path.ofText path) (.utf8 false) m)) := by
  refine ⟨?_, ?_⟩
  · rintro t rfl
    have hload := load_encode hfile hnull
    refine ⟨by rw [hload, Text.unifyLineEnds_eq], fun hcr => ?_, fun files' hfile' => ?_⟩
    · rw [hload, Text.unifyLineEnds_eq_self hcr]
    · rw [load_encode hfile' hnull, hload, Text.unifyLineEnds_eq t,
        Text.unifyLineEnds_eq_self (Text.not_mem_replaceCr _)]
  · rw [load_utf8 hfile hnull, ← Utf8.decode_ok_iff]
    cases Utf8.decode bytes with
    | error m => exact ⟨⟨nofun, nofun⟩, fun _ => ⟨m, rfl⟩⟩
    | ok text => exact ⟨⟨fun _ => ⟨_, rfl⟩, fun _ => ⟨_, rfl⟩⟩, fun h => absurd ⟨_, rfl⟩ h⟩

/-- Three ways to end a line become one, and a surrogate is refused, with the path without
what it does not need. -/
theorem load_saved_line_ends :
    load (fun _ => .ok (Utf8.encode "é\r\n+\r-\n\r".toList)) "./b//c.b".toList "utf-8".toList =
      .ok "é\n+\n-\n\n".toList ∧
    ∃ m, load (fun _ => .ok [0x2b, 0xed, 0xa0, 0x80]) "./b//c.b".toList "utf-8".toList =
      .error (.malformed ⟨.relative, ["b".toList, "c.b".toList]⟩ (.utf8 false) m) := by
  have hnull : '\x00' ∉ "./b//c.b".toList := by decide
  have hunified : Text.replaceCr (Text.replaceCrLf "é\r\n+\r-\n\r".toList) =
      "é\n+\n-\n\n".toList := by decide
  have hpath : Path.ofText "./b//c.b".toList = ⟨.relative, ["b".toList, "c.b".toList]⟩ := by decide
  have hill : ¬ Utf8.WellFormed [0x2b, 0xed, 0xa0, 0x80] := by
    rw [← Utf8.decode_ok_iff]
    exact fun ⟨t, h⟩ => nomatch h
  rw [← hunified, ← hpath]
  exact ⟨((load_saved rfl hnull).1 _ rfl).1, (load_saved rfl hnull).2.2 hill⟩

end Files
end TapeMachine

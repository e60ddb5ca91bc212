import SqlOptimizer.Cache.Resp.RoundTrip
import SqlOptimizer.Integration.CacheClient
import SqlOptimizer.Library.Delimited

/-! The client and the server agree on the frames. -/

namespace SqlOptimizer.Integration

open Cache

/-- The client writes what the server's encoder would. -/
theorem encodeCommand_eq (args : List Bytes) : encodeCommand args = writeRESP (respCommand args) := by
  have hitems : ∀ as : List Bytes, (as.flatMap fun a => 36 :: natText a.length ++ [13, 10] ++ a ++
      [13, 10]) = writeItems (as.map .bulk) := by
    intro as
    induction as with
    | nil => simp [writeItems]
    | cons a as ih =>
      rw [List.flatMap_cons, ih, List.map_cons, writeItems, writeRESP]
      rfl
  rw [encodeCommand, hitems, respCommand, writeRESP, List.length_map]
  rfl

/-- Commands one after the other, as the server reads them from a connection. -/
def parseCommands : Nat → Bytes → Except RespError (List (List Bytes) × Bytes)
  | 0, r => .ok ([], r)
  | n + 1, r => do
    let (args, r) ← parseCommand r
    let (rest, r) ← parseCommands n r
    return (args :: rest, r)

/-- The limits of the server on a command. -/
structure Sendable (args : List Bytes) : Prop where
  length : args.length ≤ 2 ^ 20
  args : ∀ a ∈ args, a.length ≤ 512 * 2 ^ 20

theorem parseCommand_encode {args : List Bytes} (h : Sendable args) (rest : Bytes) :
    parseCommand (encodeCommand args ++ rest) = .ok (args, rest) := by
  have hlen := h.length
  have hmax := maxArrayLength_eq
  rw [encodeCommand_eq]
  refine parseCommand_write (by omega) (fun a ha => ?_) rest
  have ha := h.args a ha
  have hmax := maxBulkLength_eq
  omega

theorem parseCommands_encode {cmds : List (List Bytes)} (h : ∀ args ∈ cmds, Sendable args)
    (rest : Bytes) :
    parseCommands cmds.length (cmds.flatMap encodeCommand ++ rest) = .ok (cmds, rest) := by
  induction cmds with
  | nil => rfl
  | cons args cmds ih =>
    rw [List.length_cons, List.flatMap_cons, List.append_assoc, parseCommands,
      parseCommand_encode (h args List.mem_cons_self), Except.ok_bind]
    dsimp only
    rw [ih fun a ha => h a (List.mem_cons_of_mem _ ha)]
    rfl

/-! ### Replies -/

/-- What both readers of the client do: a line ends at CR LF, and bytes are counted. -/
structure ByteReader.Reads (reader : ByteReader) : Prop where
  line : ∀ s rest : Bytes, 10 ∉ s → reader.readLine (s ++ crlf ++ rest) = .ok (s, rest)
  exact : ∀ b rest : Bytes, reader.readExact b.length (b ++ rest) = .ok (b, rest)

theorem stringByteReader_reads : stringByteReader.Reads where
  line s rest h := by
    have hLF : (10 : UInt8) ∉ s ++ [13] := by simp [h]
    have hsplit : s ++ crlf ++ rest = (s ++ [13]) ++ 10 :: rest := by simp [crlf]
    show StringByteReader.readLine _ = _
    rw [hsplit, StringByteReader.readLine, (takeWhile_append_of_notMem hLF).1,
      (takeWhile_append_of_notMem hLF).2]
    simp
  exact b rest := by
    show StringByteReader.readExact _ _ = _
    rw [StringByteReader.readExact, if_pos (by simp), List.take_left, List.drop_left]

theorem readLineFrom_append {s : Bytes} (h : 10 ∉ s) (line rest : Bytes) :
    SocketByteReader.readLineFrom line (s ++ rest) =
      SocketByteReader.readLineFrom (line ++ s) rest := by
  induction s generalizing line with
  | nil => simp
  | cons c s ih =>
    rw [List.mem_cons, not_or] at h
    rw [List.cons_append, SocketByteReader.readLineFrom, if_neg fun hc => h.1 hc.1.symm, ih h.2,
      List.append_assoc, List.singleton_append]

theorem socketByteReader_reads : socketByteReader.Reads where
  line s rest h := by
    have hLF : (10 : UInt8) ∉ s ++ [13] := by simp [h]
    have hsplit : s ++ crlf ++ rest = (s ++ [13]) ++ 10 :: rest := by simp [crlf]
    show SocketByteReader.readLineFrom [] _ = _
    rw [hsplit, readLineFrom_append hLF, SocketByteReader.readLineFrom, if_pos (by simp)]
    simp
  exact b rest := by
    show SocketByteReader.readExact _ _ = _
    rw [SocketByteReader.readExact, if_pos (by simp), List.take_left, List.drop_left]

/-- The reply that a value stands for; the client never receives an array. -/
def replyOf : RespValue → Option Reply
  | .simpleString s => some (.ok s)
  | .error msg => some (.error msg)
  | .integer n => some (.integer n)
  | .bulk b => some (.bulk b)
  | .null => some .null
  | .array _ => none

theorem isSpace_of_digit {b : UInt8} (h : isDigitByte b = true) : isSpace b = false := by
  rw [isDigitByte, decide_eq_true_eq, UInt8.le_iff_toNat_le, UInt8.le_iff_toNat_le] at h
  have h1 : b.toNat ≠ 32 := by
    have := h.1
    change 48 ≤ b.toNat at this
    omega
  have h2 : ¬ b.toNat ≤ 13 := by
    have := h.1
    change 48 ≤ b.toNat at this
    omega
  have hne : b ≠ 32 := fun heq => h1 (by rw [heq]; rfl)
  have hle : ¬ b ≤ 13 := fun hle => h2 (UInt8.le_iff_toNat_le.mp hle)
  simp [isSpace, hne, hle]

theorem takeWhile_natText (n : Nat) {rest : Bytes} (h : ∀ b ∈ rest.head?, isDigitByte b = false) :
    (natText n ++ rest).takeWhile isDigitByte = natText n :=
  Delimited.takeWhile_append (fun _ => isDigitByte_of_mem_natText) h

/-- `strtol` reads back a printed number in front of anything but a digit. -/
theorem leadingInt_intText_append (n : Int) {rest : Bytes}
    (h : ∀ b ∈ rest.head?, isDigitByte b = false) : leadingInt (intText n ++ rest) = some n := by
  unfold intText
  split
  case isTrue hneg =>
    have hspace : ((45 : UInt8) :: natText n.natAbs ++ rest).dropWhile isSpace =
        45 :: (natText n.natAbs ++ rest) :=
      List.dropWhile_cons_of_neg (by decide)
    rw [leadingInt, hspace]
    simp only [takeWhile_natText _ h, readNat_natText, Option.map_some]
    congr 1
    omega
  case isFalse hpos =>
    have hdigits : natText n.natAbs ≠ [] := natText_ne_nil _
    cases htext : natText n.natAbs with
    | nil => exact absurd htext hdigits
    | cons b bs =>
      have hb : isDigitByte b = true := isDigitByte_of_mem_natText (n := n.natAbs) (by simp [htext])
      have hspace : (b :: bs ++ rest).dropWhile isSpace = b :: (bs ++ rest) :=
        List.dropWhile_cons_of_neg (by simp [isSpace_of_digit hb])
      have hminus : b ≠ 45 := by
        rintro rfl
        exact absurd hb (by decide)
      have hplus : b ≠ 43 := by
        rintro rfl
        exact absurd hb (by decide)
      rw [leadingInt, hspace]
      split
      case h_1 heq => exact absurd (List.cons.inj heq).1 hminus
      case h_2 heq => exact absurd (List.cons.inj heq).1 hplus
      case h_3 =>
        rw [← List.cons_append, ← htext, takeWhile_natText _ h, readNat_natText, Option.map_some,
          Int.ofNat_eq_natCast]
        congr 1
        omega

theorem leadingInt_intText (n : Int) : leadingInt (intText n) = some n := by
  have happend := @leadingInt_intText_append n [] nofun
  rwa [List.append_nil] at happend

theorem stoInt_intText {name : String} {bits : Nat} {n : Int} (h : -2 ^ (bits - 1) ≤ n)
    (h' : n < 2 ^ (bits - 1)) : stoInt name bits (intText n) = .ok n := by
  rw [stoInt, leadingInt_intText]
  exact if_pos ⟨h, h'⟩

theorem notMem_intText {kind : UInt8} (hkind : kind ≠ 10 ∧ kind ≠ 13) (n : Int) :
    10 ∉ kind :: intText n := (oneLine_intText hkind n).noLF

theorem parseReply_write {reader : ByteReader} (hreader : reader.Reads) {v : RespValue}
    (hv : Transmissible v) {reply : Reply} (hreply : replyOf v = some reply) (rest : Bytes) :
    parseReply reader (writeRESP v ++ rest) = .ok (reply, rest) := by
  cases hv with
  | simpleString hs =>
    cases hreply
    rw [parseReply, writeRESP, hreader.line _ _ (hs.cons (by decide)).noLF, Except.ok_bind]
    rfl
  | error hs =>
    cases hreply
    rw [parseReply, writeRESP, hreader.line _ _ (hs.cons (by decide)).noLF, Except.ok_bind]
    rfl
  | @integer n hlow hhigh =>
    cases hreply
    rw [parseReply, writeRESP, hreader.line _ _ (notMem_intText (by decide) n), Except.ok_bind]
    have hsto : stoInt "stoll" 64 (intText n) = .ok n := stoInt_intText hlow hhigh
    simp only [hsto, Except.ok_bind]
    rfl
  | @bulk b hb =>
    cases hreply
    have hmax := maxBulkLength_eq
    have hmax' : Integration.maxBulkLength = 536870912 := rfl
    have hsto : stoInt "stoi" 32 (natText b.length) = .ok (b.length : Int) := by
      rw [← intText_natCast]
      exact stoInt_intText (by omega) (by omega)
    have hline : 10 ∉ (36 : UInt8) :: natText b.length := by
      rw [← intText_natCast]
      exact notMem_intText (by decide) _
    have hpayload := hreader.exact (b ++ crlf) rest
    rw [List.length_append, show crlf.length = 2 from rfl] at hpayload
    rw [parseReply, writeRESP, List.append_assoc, List.append_assoc, header,
      hreader.line _ _ hline, Except.ok_bind]
    simp only [hsto, Except.ok_bind]
    rw [if_neg (by decide), if_neg (by decide), if_neg (by decide), if_pos trivial,
      if_neg (by omega), if_neg (by omega), if_neg (by omega), Int.toNat_natCast,
      ← List.append_assoc, hpayload, Except.ok_bind]
    dsimp only
    rw [List.take_left]
    rfl
  | array => cases hreply
  | null =>
    cases hreply
    rw [parseReply, writeRESP, hreader.line _ _ (by decide), Except.ok_bind]
    rfl

/-- The framing between the client and the server: commands come back one after the other, values
come back from the server's parser, and replies from the client's, over both of its readers; no
byte of what follows is touched. -/
theorem framing :
    (∀ args rest, Sendable args →
      parseCommand (encodeCommand args ++ rest) = .ok (args, rest)) ∧
    (∀ cmds rest, (∀ args ∈ cmds, Sendable args) →
      parseCommands cmds.length (cmds.flatMap encodeCommand ++ rest) = .ok (cmds, rest)) ∧
    (∀ v rest, Transmissible v → parseRESP (writeRESP v ++ rest) = .ok (v, rest)) ∧
    ∀ reader ∈ [stringByteReader, socketByteReader], ∀ v rest reply, Transmissible v →
      replyOf v = some reply → parseReply reader (writeRESP v ++ rest) = .ok (reply, rest) := by
  refine ⟨fun _ rest h => parseCommand_encode h rest, fun _ rest h => parseCommands_encode h rest,
    fun _ rest h => parseRESP_write h rest, fun reader hreader _ rest _ hv hreply => ?_⟩
  have hreads : reader.Reads := by
    simp only [List.mem_cons, List.not_mem_nil, or_false] at hreader
    rcases hreader with rfl | rfl
    · exact stringByteReader_reads
    · exact socketByteReader_reads
  exact parseReply_write hreads hv hreply rest

theorem framing_get :
    parseCommand (encodeCommand [ascii "GET", [13, 10]] ++ ascii "*") =
        .ok ([ascii "GET", [13, 10]], ascii "*") ∧
      parseCommands 1 ([[ascii "PING"]].flatMap encodeCommand ++ ascii "*") =
        .ok ([[ascii "PING"]], ascii "*") ∧
      parseRESP (writeRESP (.array [.bulk [13, 10], .null, .integer (-7)]) ++ ascii "+") =
        .ok (.array [.bulk [13, 10], .null, .integer (-7)], ascii "+") ∧
      parseReply stringByteReader (writeRESP (.bulk [13, 10]) ++ ascii "+") =
        .ok (.bulk [13, 10], ascii "+") := by
  refine ⟨framing.1 _ _ ⟨by decide, by decide⟩, framing.2.1 [[ascii "PING"]] _ ?_,
    framing.2.2.1 _ _ (.array (by decide) ?_), framing.2.2.2 _ (by simp) _ _ _ (.bulk (by decide)) rfl⟩
  · intro args hargs
    cases List.mem_singleton.mp hargs
    exact ⟨by decide, by decide⟩
  · simp only [List.mem_cons, List.not_mem_nil, or_false]
    rintro v (rfl | rfl | rfl)
    · exact .bulk (by decide)
    · exact .null
    · exact .integer (by decide) (by decide)

end SqlOptimizer.Integration

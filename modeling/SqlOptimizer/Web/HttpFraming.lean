import SqlOptimizer.Distributed.HttpClient
import SqlOptimizer.Integration.Framing

/-! The two ends of an HTTP connection: what one sends the other reads, in whatever chunks. -/

namespace SqlOptimizer.Http

open Integration Cache

/-- The lines of a header: neither a line's end nor the header's can be found inside one. -/
structure Lines (lines : List Bytes) : Prop where
  some_line : lines ≠ []
  line : ∀ l ∈ lines, l ≠ [] ∧ 13 ∉ l ∧ 10 ∉ l

def headerBlock (lines : List Bytes) : Bytes := lineEnd.intercalate lines

theorem Lines.tail {l l' : Bytes} {ls : List Bytes} (h : Lines (l :: l' :: ls)) :
    Lines (l' :: ls) :=
  ⟨List.cons_ne_nil _ _, fun k hk => h.line k (List.mem_cons_of_mem _ hk)⟩

theorem headerBlock_cons (l l' : Bytes) (ls : List Bytes) :
    headerBlock (l :: l' :: ls) = l ++ 13 :: 10 :: headerBlock (l' :: ls) := by
  simp [headerBlock, lineEnd, List.intercalate_cons_cons]

theorem message_eq {lines : List Bytes} (h : lines ≠ []) (body : Bytes) :
    message lines body = headerBlock lines ++ (headerTerminator ++ body) := by
  unfold message
  induction lines with
  | nil => exact absurd rfl h
  | cons l ls ih =>
    cases ls with
    | nil => simp [headerBlock, lineEnd, headerTerminator]
    | cons l' ls =>
      have hrest := ih (List.cons_ne_nil _ _)
      rw [headerBlock_cons, List.flatMap_cons, List.append_assoc, List.append_assoc,
        ← List.append_assoc _ lineEnd body, hrest]
      simp [lineEnd]

/-- After a line's end comes a line, not another line's end. -/
theorem find_lineEnd {l : Bytes} (hne : l ≠ []) (hl : 13 ∉ l) (rest : Bytes) :
    Chunks.find headerTerminator (13 :: 10 :: (l ++ rest)) =
      (Chunks.find headerTerminator (l ++ rest)).map (· + 2) := by
  cases l with
  | nil => exact absurd rfl hne
  | cons b l =>
    have hb : b ≠ 13 := fun heq => hl (heq ▸ List.mem_cons_self)
    rw [Chunks.find_cons, if_neg (by simp [headerTerminator, hb.symm]), Chunks.find_cons,
      if_neg (by simp [headerTerminator]), Option.map_map]
    rfl

/-- The end of the header is found where it is, and not before. -/
theorem find_headerBlock {lines : List Bytes} (h : Lines lines) (rest : Bytes) :
    Chunks.find headerTerminator (headerBlock lines ++ (headerTerminator ++ rest)) =
      some (headerBlock lines).length := by
  induction lines with
  | nil => exact absurd rfl h.some_line
  | cons l ls ih =>
    have hl := (h.line l List.mem_cons_self).2.1
    have hskip : ∀ t, Chunks.find headerTerminator (l ++ t) =
        (Chunks.find headerTerminator t).map (· + l.length) := Chunks.find_append hl
    cases ls with
    | nil =>
      have hblock : headerBlock [l] = l := by simp [headerBlock]
      rw [hblock, hskip, Chunks.find_eq_zero (List.prefix_append _ _), Option.map_some,
        Nat.zero_add]
    | cons l' ls =>
      obtain ⟨hne', hl', -⟩ := h.line l' (by simp)
      obtain ⟨r, hr⟩ : ∃ r, headerBlock (l' :: ls) = l' ++ r := by
        rw [headerBlock, Delimited.intercalate_cons]
        exact ⟨_, rfl⟩
      have hrest := ih h.tail
      rw [headerBlock_cons, List.append_assoc, hskip]
      rw [hr, List.append_assoc] at hrest
      rw [hr, List.cons_append, List.cons_append, List.append_assoc, find_lineEnd hne' hl', hrest]
      simp only [Option.map_some, List.length_append, List.length_cons]
      congr 1
      omega

/-- The lines as `std::getline` gives them: all but the last still have their CR. -/
def withCR : List Bytes → List Bytes
  | [] => []
  | [l] => [l]
  | l :: ls => (l ++ [13]) :: withCR ls

theorem exists_withCR (l : Bytes) (ls : List Bytes) : ∃ m ms, withCR (l :: ls) = m :: ms := by
  cases ls with
  | nil => exact ⟨_, _, rfl⟩
  | cons => exact ⟨_, _, rfl⟩

theorem headerBlock_eq_intercalate (lines : List Bytes) :
    headerBlock lines = ([10] : Bytes).intercalate (withCR lines) := by
  induction lines with
  | nil => rfl
  | cons l ls ih =>
    cases ls with
    | nil => rfl
    | cons l' ls =>
      obtain ⟨m, ms, hm⟩ := exists_withCR l' ls
      have hcr : withCR (l :: l' :: ls) = (l ++ [13]) :: m :: ms := by
        rw [← hm]
        rfl
      rw [headerBlock_cons, ih, hcr, hm, List.intercalate_cons_cons]
      simp

theorem mem_withCR {lines : List Bytes} {m : Bytes} (h : m ∈ withCR lines) :
    ∃ l ∈ lines, m = l ∨ m = l ++ [13] := by
  induction lines with
  | nil => cases h
  | cons l ls ih =>
    cases ls with
    | nil => exact ⟨l, List.mem_cons_self, .inl (List.mem_singleton.mp h)⟩
    | cons l' ls =>
      rcases List.mem_cons.mp h with rfl | h
      · exact ⟨l, List.mem_cons_self, .inr rfl⟩
      · obtain ⟨k, hk, hm⟩ := ih h
        exact ⟨k, List.mem_cons_of_mem _ hk, hm⟩

theorem dropCR_withCR {lines : List Bytes} (h : ∀ l ∈ lines, 13 ∉ l) :
    (withCR lines).map dropCR = lines := by
  have hplain : ∀ {l : Bytes}, 13 ∉ l → dropCR l = l := fun {l} hl =>
    if_neg fun hlast => hl (List.mem_of_getLast? hlast)
  induction lines with
  | nil => rfl
  | cons l ls ih =>
    have hl := h l List.mem_cons_self
    cases ls with
    | nil =>
      show [dropCR l] = [l]
      rw [hplain hl]
    | cons l' ls =>
      show dropCR (l ++ [13]) :: (withCR (l' :: ls)).map dropCR = l :: l' :: ls
      rw [ih fun k hk => h k (List.mem_cons_of_mem _ hk)]
      simp [dropCR]

theorem getLast?_withCR (lines : List Bytes) : (withCR lines).getLast? = lines.getLast? := by
  induction lines with
  | nil => rfl
  | cons l ls ih =>
    cases ls with
    | nil => rfl
    | cons l' ls =>
      obtain ⟨m, ms, hm⟩ := exists_withCR l' ls
      show ((l ++ [13]) :: withCR (l' :: ls)).getLast? = _
      rw [hm, List.getLast?_cons_cons, ← hm, ih, List.getLast?_cons_cons]

/-- The lines of a header come back. -/
theorem getlines_headerBlock {lines : List Bytes} (h : Lines lines) :
    (getlines (headerBlock lines)).map dropCR = lines := by
  have hne : withCR lines ≠ [] := by
    cases lines with
    | nil => exact absurd rfl h.some_line
    | cons l ls =>
      obtain ⟨m, ms, hm⟩ := exists_withCR l ls
      rw [hm]
      exact List.cons_ne_nil _ _
  have hsplit : (headerBlock lines).splitOn 10 = withCR lines := by
    rw [headerBlock_eq_intercalate]
    refine List.splitOn_intercalate 10 (fun m hm => ?_) hne
    obtain ⟨l, hl, rfl | rfl⟩ := mem_withCR hm
    · exact (h.line _ hl).2.2
    · simp [(h.line _ hl).2.2]
  have hlast : (withCR lines).getLast? ≠ some [] := by
    rw [getLast?_withCR]
    exact fun hl => (h.line _ (List.mem_of_getLast? hl)).1 rfl
  rw [getlines, hsplit, if_neg hlast, dropCR_withCR fun l hl => (h.line l hl).2.1]

/-- What both ends receive: the lines of the header, and chunks with the body. -/
theorem receive {lines : List Bytes} (h : Lines lines) {body : Bytes} {chunks : List Bytes}
    (hsmall : (headerBlock lines).length ≤ 2 ^ 20 - 4100) (hsized : Chunks.Sized chunkSize chunks)
    (hsent : chunks.flatten = message lines body) :
    ∃ i buf chunks',
      Chunks.readUntil headerTerminator headerGuard [] chunks = some (i, buf, chunks') ∧
      (getlines (buf.take i)).map dropCR = lines ∧
      Chunks.readCount body.length (buf.drop (i + 4)) chunks' = some body := by
  have hfind := find_headerBlock h body
  rw [← message_eq h.some_line, ← hsent] at hfind
  have hguard : (headerBlock lines).length + 4 + chunkSize ≤ headerGuard + 1 := by
    unfold chunkSize headerGuard
    omega
  have hnone : ([] : Bytes).length < (headerBlock lines).length + headerTerminator.length := by
    simp [headerTerminator]
  obtain ⟨buf, chunks', hread, hall, hlen, hsized'⟩ :=
    Chunks.readUntil_eq hsized hfind hnone hguard
  have hlen' : (headerBlock lines).length + 4 ≤ buf.length := hlen
  rw [List.nil_append, hsent, message_eq h.some_line] at hall
  refine ⟨_, buf, chunks', hread, ?_, ?_⟩
  · have htake : buf.take (headerBlock lines).length = headerBlock lines := by
      have happend : (buf ++ chunks'.flatten).take (headerBlock lines).length =
          buf.take (headerBlock lines).length := List.take_append_of_le_length (by omega)
      rw [← happend, hall, List.take_left]
    rw [htake, getlines_headerBlock h]
  · have hdrop : buf.drop ((headerBlock lines).length + 4) ++ chunks'.flatten = body := by
      rw [← List.drop_append_of_le_length hlen', hall, ← List.drop_drop, List.drop_left]
      rfl
    have hcount := @Chunks.readCount_eq _ _ (buf.drop ((headerBlock lines).length + 4)) _ hsized'
    rwa [hdrop] at hcount

/-! ### The fields of a line -/

theorem extractWord_blank (s : Bytes) : extractWord (32 :: s) = extractWord s := by
  have hdrop : (32 :: s).dropWhile Integration.isSpace = s.dropWhile Integration.isSpace :=
    List.dropWhile_cons_of_pos (by decide)
  rw [extractWord, hdrop]
  rfl

theorem noSpace_of_all {w : Bytes} (h : w.all (fun b => !Integration.isSpace b) = true) :
    ∀ b ∈ w, Integration.isSpace b = false := fun b hb => by
  simpa using List.all_eq_true.mp h b hb

theorem extractWord_append {w rest : Bytes} (hne : w ≠ [])
    (hw : ∀ b ∈ w, Integration.isSpace b = false)
    (hrest : ∀ b ∈ rest.head?, Integration.isSpace b = true) :
    extractWord (w ++ rest) = (w, rest) := by
  have hdrop : (w ++ rest).dropWhile Integration.isSpace = w ++ rest := by
    cases w with
    | nil => exact absurd rfl hne
    | cons b w => exact List.dropWhile_cons_of_neg (by simp [hw b List.mem_cons_self])
  have hword : ∀ b ∈ w, (!Integration.isSpace b) = true := fun b hb => by
    rw [hw b hb]
    rfl
  have hend : ∀ b ∈ rest.head?, (!Integration.isSpace b) = false := fun b hb => by
    rw [hrest b hb]
    rfl
  rw [extractWord, hdrop]
  exact Prod.ext (Delimited.takeWhile_append hword hend) (Delimited.dropWhile_append hword hend)

theorem headerField_append {name : Bytes} (hname : 58 ∉ name) (value : Bytes) :
    headerField (name ++ 58 :: 32 :: value) = some (toLower name, value.dropWhile (· == 32)) := by
  have hword : ∀ b ∈ name, (b != 58) = true := by
    intro b hb
    rw [bne_iff_ne]
    rintro rfl
    exact hname hb
  have hend : ∀ b ∈ (58 :: 32 :: value).head?, (b != 58) = false := by
    rintro b ⟨⟩
    rfl
  rw [headerField, if_pos (by simp), Delimited.takeWhile_append hword hend,
    Delimited.dropWhile_append hword hend]
  rfl

/-- The field of a line with a given start. -/
theorem headerField_text {start key : String} {name : Bytes} (hstart : ascii start = name ++ [58, 32])
    (hname : 58 ∉ name) (hkey : toLower name = ascii key) (value : Bytes) :
    headerField (ascii start ++ value) = some (ascii key, value.dropWhile (· == 32)) := by
  rw [hstart, List.append_assoc, ← hkey]
  exact headerField_append hname value

theorem stoul_natText {n : Nat} (h : n < 2 ^ 64) : stoul (natText n) = some n := by
  rw [← intText_natCast, stoul, leadingInt_intText]
  dsimp only
  rw [if_pos (by omega)]
  congr 1
  omega

theorem natText_dropWhile_blank (n : Nat) : (natText n).dropWhile (· == 32) = natText n := by
  cases htext : natText n with
  | nil => rfl
  | cons b bs =>
    refine List.dropWhile_cons_of_neg fun hb => ?_
    have hdigit : isDigitByte b = true := isDigitByte_of_mem_natText (n := n) (by simp [htext])
    rw [eq_of_beq hb] at hdigit
    cases hdigit

theorem plain_natText (n : Nat) : plain (natText n) = true := by
  refine List.all_eq_true.mpr fun b hb => ?_
  have hne := ne_of_isDigitByte (isDigitByte_of_mem_natText hb)
  simp [hne.1, hne.2]

theorem notMem_of_plain {s : Bytes} (h : plain s = true) : 13 ∉ s ∧ 10 ∉ s :=
  ⟨fun hmem => absurd (List.all_eq_true.mp h _ hmem) (by decide),
    fun hmem => absurd (List.all_eq_true.mp h _ hmem) (by decide)⟩

theorem plain_intText (n : Int) : plain (intText n) = true := by
  unfold intText
  split
  · exact plain_append (s := [45]) rfl (plain_natText _)
  · exact plain_natText _

/-- A path without blanks is on one line. -/
theorem plain_of_notSpace {s : Bytes} (h : ∀ b ∈ s, Integration.isSpace b = false) :
    plain s = true := by
  refine List.all_eq_true.mpr fun b hb => ?_
  have hspace := h b hb
  rw [Bool.and_eq_true, bne_iff_ne, bne_iff_ne]
  constructor <;> rintro rfl <;> exact absurd hspace (by decide)

theorem lines_requestLines {host path : Bytes} (hpath : ∀ b ∈ path, Integration.isSpace b = false)
    (hhost : plain host = true) (body : Bytes) : Lines (requestLines host path body) := by
  refine ⟨List.cons_ne_nil _ _, fun l hl => ?_⟩
  simp only [requestLines, List.mem_cons, List.not_mem_nil, or_false] at hl
  rcases hl with rfl | rfl | rfl | rfl | rfl
  · exact ⟨by simp [ascii], notMem_of_plain
      (plain_append (plain_append rfl (plain_of_notSpace hpath)) rfl)⟩
  · exact ⟨by simp [ascii], notMem_of_plain (plain_append rfl hhost)⟩
  · exact ⟨by simp [ascii], notMem_of_plain rfl⟩
  · exact ⟨by simp [ascii], notMem_of_plain (plain_append rfl (plain_natText _))⟩
  · exact ⟨by simp [ascii], notMem_of_plain rfl⟩

theorem plain_statusText (status : Int) : plain (ascii (statusText status)) = true := by
  unfold statusText
  split_ifs <;> rfl

theorem lines_responseLines {resp : HttpResponse} (htype : plain resp.contentType = true) :
    Lines (responseLines resp) := by
  refine ⟨List.cons_ne_nil _ _, fun l hl => ?_⟩
  simp only [responseLines, List.mem_cons, List.not_mem_nil, or_false] at hl
  rcases hl with rfl | rfl | rfl | rfl
  · refine ⟨by simp [ascii], notMem_of_plain (plain_append (plain_append rfl (plain_intText _)) ?_)⟩
    exact plain_append (s := [32]) rfl (plain_statusText _)
  · exact ⟨by simp [ascii], notMem_of_plain (plain_append rfl htype)⟩
  · exact ⟨by simp [ascii], notMem_of_plain (plain_append rfl (plain_natText _))⟩
  · exact ⟨by simp [ascii], notMem_of_plain rfl⟩

theorem headerField_contentLength (body : Bytes) :
    headerField (ascii "Content-Length: " ++ natText body.length) =
      some (ascii "content-length", natText body.length) := by
  have hlength : ascii "Content-Length: " = ascii "Content-Length" ++ [58, 32] := by decide
  have hkey : toLower (ascii "Content-Length") = ascii "content-length" := by decide
  rw [headerField_text hlength (by decide) hkey, natText_dropWhile_blank]

theorem headerField_close :
    headerField (ascii "Connection: close") = some (ascii "connection", ascii "close") := by decide

/-- The fields of a request, with their keys in lower case. -/
theorem fields_requestLines (host path body : Bytes) :
    (requestLines host path body).tail.filterMap headerField =
      [(ascii "host", host.dropWhile (· == 32)), (ascii "content-type", ascii "application/json"),
        (ascii "content-length", natText body.length), (ascii "connection", ascii "close")] := by
  have hstart : ascii "Host: " = ascii "Host" ++ [58, 32] := by decide
  have hkey : toLower (ascii "Host") = ascii "host" := by decide
  have hjson : headerField (ascii "Content-Type: application/json") =
      some (ascii "content-type", ascii "application/json") := by decide
  simp only [requestLines, List.tail_cons, List.filterMap_cons, List.filterMap_nil,
    headerField_text hstart (by decide) hkey, hjson, headerField_contentLength, headerField_close]

/-- The fields of a response. -/
theorem fields_responseLines (resp : HttpResponse) :
    (responseLines resp).tail.filterMap headerField =
      [(ascii "content-type", resp.contentType.dropWhile (· == 32)),
        (ascii "content-length", natText resp.body.length),
        (ascii "connection", ascii "close")] := by
  have hstart : ascii "Content-Type: " = ascii "Content-Type" ++ [58, 32] := by decide
  have hkey : toLower (ascii "Content-Type") = ascii "content-type" := by decide
  simp only [responseLines, List.tail_cons, List.filterMap_cons, List.filterMap_nil,
    headerField_text hstart (by decide) hkey, headerField_contentLength, headerField_close]

/-! ### Both ends -/

theorem readRequest_postRequest {host path body : Bytes} (hne : path ≠ [])
    (hpath : ∀ b ∈ path, Integration.isSpace b = false ∧ b ≠ 63) (hhost : plain host = true)
    (hbody : body.length < 2 ^ 64)
    (hsmall : (headerBlock (requestLines host path body)).length ≤ 2 ^ 20 - 4100)
    {chunks : List Bytes} (hsized : Chunks.Sized chunkSize chunks)
    (hsent : chunks.flatten = postRequest host path body) :
    ∃ req, readRequest chunks = some req ∧ req.method = ascii "POST" ∧ req.path = path ∧
      req.body = body := by
  obtain ⟨i, buf, chunks', hread, hlines, hcount⟩ :=
    receive (lines_requestLines (fun b hb => (hpath b hb).1) hhost body) hsmall hsized hsent
  have hmethod : extractWord (ascii "POST " ++ path ++ ascii " HTTP/1.1") =
      (ascii "POST", 32 :: (path ++ ascii " HTTP/1.1")) := by
    rw [List.append_assoc]
    exact extractWord_append (w := ascii "POST") (by decide) (noSpace_of_all rfl)
      (by rintro b ⟨⟩; rfl)
  have hfull : extractWord (32 :: (path ++ ascii " HTTP/1.1")) = (path, ascii " HTTP/1.1") := by
    rw [extractWord_blank]
    exact extractWord_append hne (fun b hb => (hpath b hb).1) (by rintro b ⟨⟩; rfl)
  have hquery : path.takeWhile (· != 63) = path := by
    rw [List.takeWhile_eq_self_iff]
    exact fun b hb => bne_iff_ne.mpr (hpath b hb).2
  have hlength : (((requestLines host path body).tail.filterMap headerField).foldl
      (fun headers field => headers.insert field.1 field.2)
      (∅ : AList fun _ : Bytes => Bytes)).lookup (ascii "content-length") =
        some (natText body.length) := by
    rw [fields_requestLines]
    show (((((∅ : AList fun _ : Bytes => Bytes).insert _ _).insert _ _).insert
      (ascii "content-length") (natText body.length)).insert (ascii "connection") _).lookup _ = _
    rw [AList.lookup_insert_ne (by decide), AList.lookup_insert]
  have hhead : (requestLines host path body).headD [] =
      ascii "POST " ++ path ++ ascii " HTTP/1.1" := rfl
  rw [readRequest, hread]
  simp only [Option.bind_eq_bind, Option.bind_some, hlines, hhead, hmethod, hfull, hlength,
    stoul_natText hbody, hcount, hquery]
  exact ⟨_, rfl, rfl, rfl, rfl⟩

theorem readResponse_writeResponse {resp : HttpResponse} (htype : plain resp.contentType = true)
    (hstatus : -2 ^ 31 ≤ resp.status ∧ resp.status < 2 ^ 31) (hbody : resp.body.length < 2 ^ 64)
    (hsmall : (headerBlock (responseLines resp)).length ≤ 2 ^ 20 - 4100)
    {chunks : List Bytes} (hsized : Chunks.Sized chunkSize chunks)
    (hsent : chunks.flatten = writeResponse resp) :
    readResponse chunks = some ⟨resp.status, resp.body⟩ := by
  obtain ⟨i, buf, chunks', hread, hlines, hcount⟩ :=
    receive (lines_responseLines htype) hsmall hsized hsent
  have hversion : extractWord (ascii "HTTP/1.1 " ++ intText resp.status ++
      32 :: ascii (statusText resp.status)) = (ascii "HTTP/1.1",
        32 :: (intText resp.status ++ 32 :: ascii (statusText resp.status))) := by
    rw [List.append_assoc]
    exact extractWord_append (w := ascii "HTTP/1.1") (by decide) (noSpace_of_all rfl)
      (by rintro b ⟨⟩; rfl)
  have hint : extractInt (32 :: (intText resp.status ++ 32 :: ascii (statusText resp.status))) =
      resp.status := by
    have hleading : leadingInt (32 :: (intText resp.status ++
        32 :: ascii (statusText resp.status))) = some resp.status :=
      leadingInt_intText_append resp.status (by rintro b ⟨⟩; rfl)
    rw [extractInt, hleading]
    show max (-2 ^ 31) (min (2 ^ 31 - 1) resp.status) = resp.status
    omega
  have hhead : (responseLines resp).headD [] = ascii "HTTP/1.1 " ++ intText resp.status ++
      32 :: ascii (statusText resp.status) := rfl
  have hlength : ((responseLines resp).tail.filterMap headerField).foldlM (fun length field =>
      if field.1 = ascii "content-length" then stoul field.2 else some length) 0 =
        some resp.body.length := by
    rw [fields_responseLines]
    show (stoul (natText resp.body.length)).bind some = _
    rw [stoul_natText hbody]
    rfl
  rw [readResponse, hread]
  simp only [Option.bind_eq_bind, Option.bind_some, hlines, hhead, hversion, hint, hlength, hcount]
  rfl

/-- However `recv` splits what was sent, the server reads the path and the body of a request, and
the client the status and the body of a response. -/
theorem http_framing :
    (∀ (host path body : Bytes) (chunks : List Bytes), path ≠ [] →
      (∀ b ∈ path, Integration.isSpace b = false ∧ b ≠ 63) → plain host = true →
      body.length < 2 ^ 64 → (headerBlock (requestLines host path body)).length ≤ 2 ^ 20 - 4100 →
      Chunks.Sized chunkSize chunks → chunks.flatten = postRequest host path body →
      ∃ req, readRequest chunks = some req ∧ req.method = ascii "POST" ∧ req.path = path ∧
        req.body = body) ∧
    (∀ (resp : HttpResponse) (chunks : List Bytes), plain resp.contentType = true →
      (-2 ^ 31 ≤ resp.status ∧ resp.status < 2 ^ 31) → resp.body.length < 2 ^ 64 →
      (headerBlock (responseLines resp)).length ≤ 2 ^ 20 - 4100 →
      Chunks.Sized chunkSize chunks → chunks.flatten = writeResponse resp →
      readResponse chunks = some ⟨resp.status, resp.body⟩) :=
  ⟨fun _ _ _ _ hne hpath hhost hbody hsmall hsized hsent =>
      readRequest_postRequest hne hpath hhost hbody hsmall hsized hsent,
    fun _ _ htype hstatus hbody hsmall hsized hsent =>
      readResponse_writeResponse htype hstatus hbody hsmall hsized hsent⟩

/-- A request that arrives byte by byte, and a response in two chunks, with the end of a header in
the body of each. -/
theorem http_framing_terminator :
    let body := ascii "a\r\n\r\nb";
    let resp : HttpResponse := { body };
    (∃ req, readRequest ((postRequest (ascii "h") (ascii "/p") body).map ([·])) = some req ∧
      req.body = body) ∧
    readResponse [(writeResponse resp).take 30, (writeResponse resp).drop 30] =
      some ⟨200, body⟩ := by
  intro body resp
  have hpath : ∀ b ∈ ascii "/p", Integration.isSpace b = false ∧ b ≠ 63 := fun b hb =>
    of_decide_eq_true (List.all_eq_true.mp (by decide : (ascii "/p").all fun b =>
      decide (Integration.isSpace b = false ∧ b ≠ 63)) b hb)
  constructor
  · obtain ⟨req, hreq, -, -, hbody⟩ := http_framing.1 (ascii "h") (ascii "/p") body
      ((postRequest (ascii "h") (ascii "/p") body).map ([·])) (by decide) hpath (by decide)
      (by decide) (by decide) (by decide) (by decide)
    exact ⟨req, hreq, hbody⟩
  · exact http_framing.2 resp _ (by decide) (by decide) (by decide) (by decide) (by decide)
      (by decide)

end SqlOptimizer.Http

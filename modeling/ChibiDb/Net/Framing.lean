import ChibiDb.Data.Reader

/-!
# Requests in a Stream

The HTTP frontend and the text frontend collect what they read in a buffer until it has
a request, which they take from the front. How the network cuts the stream into reads
does not matter to them: once a buffer has a request, more bytes behind it do not change
the request, and a header that is refused for its length is refused however much of it
has arrived.

## Main definitions

* `Segment`: What one read gives.
* `readHeaders`, `readBody`, `serveHttp`: The loops of the HTTP frontend.
* `decodeRequest`, `serveText`: The loop of the text frontend.

## Theorems

* `find_append`, `find_of_append`: Where the header ends, in a part of the stream.
* `serveHttp_whole`, `serveText_whole`: A stream in parts is served as the whole of it.
* `requests_of_stream`: The requests depend on the stream alone, and share no bytes.
-/

namespace ChibiDb.Net

open List

/-- What one read gives: some bytes, at most as many as a loop asks for. -/
abbrev Segment := { bytes : List UInt8 // bytes ≠ [] ∧ bytes.length ≤ 4096 }

/-- The bytes of some reads. -/
def bytesOf (reads : List Segment) : List UInt8 := reads.flatMap Subtype.val

@[simp] theorem bytesOf_nil : bytesOf [] = [] := rfl

@[simp] theorem bytesOf_cons (s : Segment) (reads : List Segment) :
    bytesOf (s :: reads) = s.val ++ bytesOf reads := flatMap_cons

/-- The first place where `needle`, which is not empty, stands. -/
def find (needle : List UInt8) : List UInt8 → Option Nat
  | [] => none
  | b :: bs => if needle.isPrefixOf (b :: bs) then some 0 else (find needle bs).map (· + 1)

/-! ### The HTTP frontend -/

/-- What is read from the text of a header: the method and the path, the length of the body,
    and whether the connection is kept. -/
structure HeadReader where
  requestLine : List UInt8 → String × String
  contentLength : List UInt8 → Option Nat
  keepAlive : List UInt8 → Bool

/-- A request: the method and the path, the header and the body. -/
structure HttpRequest where
  line : String × String
  head : List UInt8
  body : List UInt8

/-- The end of a header: an empty line. -/
def headerEnd : List UInt8 := [13, 10, 13, 10]

/-- The largest request that is buffered. -/
def maxRequest : Nat := 8 * 1024 * 1024

/-- How reading a header ends. -/
inductive Headers where
  | found (stop : Nat) (buf : List UInt8) (reads : List Segment)
  | ended
  | tooLarge

/-- Read until there is a header. No more reads are the end of the stream. -/
def readHeaders (buf : List UInt8) (reads : List Segment) : Headers :=
  match find headerEnd buf with
  | some pos => .found (pos + 4) buf reads
  | none =>
    if buf.length > maxRequest then .tooLarge
    else match reads with
      | [] => .ended
      | s :: reads => readHeaders (buf ++ s.val) reads

/-- Read until there is a body, or the stream ends. -/
def readBody (want : Nat) (buf : List UInt8) (reads : List Segment) :
    List UInt8 × List Segment :=
  if buf.length < want then match reads with
    | [] => (buf, [])
    | s :: reads => readBody want (buf ++ s.val) reads
  else (buf, reads)

/-- A header that is in the buffer is found there. -/
theorem readHeaders_of_find {buf : List UInt8} {pos : Nat} (h : find headerEnd buf = some pos) :
    readHeaders buf [] = .found (pos + 4) buf [] := by
  rw [readHeaders, h]

/-- At the end of the stream, what there is of a body is in the buffer. -/
theorem readBody_nil (want : Nat) (buf : List UInt8) : readBody want buf [] = (buf, []) := by
  rw [readBody]
  split_ifs <;> rfl

/-- Where a header was found, in which part of the stream. -/
theorem readHeaders_found {stop : Nat} {buf buf' : List UInt8} {reads reads' : List Segment}
    (h : readHeaders buf reads = .found stop buf' reads') :
    buf' ++ bytesOf reads' = buf ++ bytesOf reads ∧
      ∃ pos, stop = pos + 4 ∧ find headerEnd buf' = some pos := by
  fun_induction readHeaders buf reads with
  | case1 buf reads pos hpos =>
    cases h
    exact ⟨rfl, pos, rfl, hpos⟩
  | case2 | case3 => cases h
  | case4 buf hnone hlen s reads ih =>
    rcases ih h with ⟨hbytes, hpos⟩
    exact ⟨hbytes.trans (append_assoc ..), hpos⟩

/-- What reading a body leaves in front, and behind. -/
theorem readBody_spec (want : Nat) (buf : List UInt8) (reads : List Segment) :
    let r := readBody want buf reads
    r.1 ++ bytesOf r.2 = buf ++ bytesOf reads ∧ buf <+: r.1 ∧ (want ≤ r.1.length ∨ r.2 = []) := by
  fun_induction readBody want buf reads with
  | case1 buf hlen => exact ⟨rfl, prefix_rfl, .inr rfl⟩
  | case2 buf hlen s reads ih =>
    rcases ih with ⟨hbytes, hpre, hstop⟩
    exact ⟨hbytes.trans (append_assoc ..), (prefix_append ..).trans hpre, hstop⟩
  | case3 buf reads hlen => exact ⟨rfl, prefix_rfl, .inl (not_lt.mp hlen)⟩

/-- What was found is there. -/
theorem find_le {needle bs : List UInt8} {pos : Nat} (h : find needle bs = some pos) :
    pos + needle.length ≤ bs.length := by
  induction bs generalizing pos with
  | nil => cases h
  | cons b bs ih =>
    rw [find] at h
    split_ifs at h with hpre
    · cases h
      have hle : needle <+: b :: bs := isPrefixOf_iff_prefix.mp hpre
      simpa using hle.length_le
    · rcases Option.map_eq_some_iff.mp h with ⟨p, hp, rfl⟩
      have hle := ih hp
      rw [length_cons]
      omega

/-- A request takes bytes from the buffer, so the loop ends. -/
theorem readBody_length {stop want : Nat} {buf buf' : List UInt8} {reads reads' : List Segment}
    (h : readHeaders buf reads = .found stop buf' reads') (hwant : stop ≤ want) :
    let r := readBody want buf' reads'
    (r.1.drop (min want r.1.length)).length + (bytesOf r.2).length <
      buf.length + (bytesOf reads).length := by
  have hspec := readBody_spec want buf' reads'
  generalize readBody want buf' reads' = r at hspec ⊢
  rcases readHeaders_found h with ⟨hbytes, pos, rfl, hpos⟩
  rcases hspec with ⟨hbytes', hpre, -⟩
  have hlen := congrArg length (hbytes'.trans hbytes)
  have hfour : pos + 4 ≤ buf'.length := find_le hpos
  have hle : buf'.length ≤ r.1.length := hpre.length_le
  rw [length_append, length_append] at hlen
  simp only [length_drop]
  omega

/-- The requests of a connection, in the order they are dispatched. -/
def serveHttp (rd : HeadReader) (buf : List UInt8) (reads : List Segment) : List HttpRequest :=
  match _h : readHeaders buf reads with
  | .ended | .tooLarge => []
  | .found stop buf' reads' =>
    let head := buf'.take stop
    let want := stop + (rd.contentLength head).getD 0
    if want > maxRequest then []
    else
      let r := readBody want buf' reads'
      -- A stream that ends within a body leaves what there is of it.
      let bodyEnd := min want r.1.length
      ⟨rd.requestLine head, head, (r.1.take bodyEnd).drop stop⟩ ::
        if rd.keepAlive head then serveHttp rd (r.1.drop bodyEnd) r.2 else []
termination_by buf.length + (bytesOf reads).length
decreasing_by exact readBody_length (by assumption) (Nat.le_add_right ..)

/-- Bytes that are there are at the front of a longer buffer if they were before. -/
theorem isPrefixOf_append {needle bs : List UInt8} (h : needle.length ≤ bs.length)
    (more : List UInt8) : needle.isPrefixOf (bs ++ more) = needle.isPrefixOf bs := by
  rw [Bool.eq_iff_iff, isPrefixOf_iff_prefix, isPrefixOf_iff_prefix]
  exact ⟨fun hpre => prefix_of_prefix_length_le hpre (prefix_append ..) h,
    fun hpre => hpre.trans (prefix_append ..)⟩

/-- What was found is found in a longer buffer. -/
theorem find_append {needle bs : List UInt8} {pos : Nat} (h : find needle bs = some pos)
    (more : List UInt8) : find needle (bs ++ more) = some pos := by
  induction bs generalizing pos with
  | nil => cases h
  | cons b bs ih =>
    have hlen : needle.length ≤ (b :: bs).length := (Nat.le_add_left ..).trans (find_le h)
    rw [find] at h
    rw [cons_append, find, ← cons_append, isPrefixOf_append hlen]
    split_ifs at h ⊢
    · exact h
    · rcases Option.map_eq_some_iff.mp h with ⟨p, hp, rfl⟩
      rw [ih hp]
      rfl

/-- What is found in a longer buffer was found before, if it was there. -/
theorem find_of_append {needle bs more : List UInt8} {pos : Nat} (hn : needle ≠ [])
    (h : find needle (bs ++ more) = some pos) (hle : pos + needle.length ≤ bs.length) :
    find needle bs = some pos := by
  induction bs generalizing pos with
  | nil =>
    have hpos := length_pos_iff.mpr hn
    rw [length_nil] at hle
    omega
  | cons b bs ih =>
    have hlen : needle.length ≤ (b :: bs).length := (Nat.le_add_left ..).trans hle
    rw [cons_append, find, ← cons_append, isPrefixOf_append hlen] at h
    rw [find]
    split_ifs at h ⊢
    · exact h
    · rcases Option.map_eq_some_iff.mp h with ⟨p, hp, rfl⟩
      rw [length_cons] at hle
      rw [ih hp (by omega)]
      rfl

/-- A stream that ends has no header. -/
theorem readHeaders_ended {buf : List UInt8} {reads : List Segment}
    (h : readHeaders buf reads = .ended) : find headerEnd (buf ++ bytesOf reads) = none := by
  fun_induction readHeaders buf reads with
  | case1 | case2 => cases h
  | case3 buf hnone hlen => rwa [bytesOf_nil, append_nil]
  | case4 buf hnone hlen s reads ih =>
    rw [bytesOf_cons, ← append_assoc]
    exact ih h

/-- A header that is not in a part of the stream ends behind it. -/
theorem header_ends_behind {bs more : List UInt8} {pos : Nat} (h : find headerEnd bs = none)
    (hpos : find headerEnd (bs ++ more) = some pos) : bs.length < pos + 4 := by
  refine not_le.mp fun hle => ?_
  cases h.symm.trans (find_of_append (by decide) hpos hle)

/-- A header that is refused ends behind the limit, if it ends at all. -/
theorem readHeaders_tooLarge {buf : List UInt8} {reads : List Segment}
    (h : readHeaders buf reads = .tooLarge) {pos : Nat}
    (hpos : find headerEnd (buf ++ bytesOf reads) = some pos) : maxRequest < pos + 4 := by
  fun_induction readHeaders buf reads with
  | case1 | case3 => cases h
  | case2 buf reads hnone hlen => exact hlen.trans (header_ends_behind hnone hpos)
  | case4 buf hnone hlen s reads ih =>
    rw [bytesOf_cons, ← append_assoc] at hpos
    exact ih h hpos

/-- A body that is read takes the same part of the stream as one that is there. -/
theorem readBody_whole {want : Nat} {buf whole : List UInt8} {reads : List Segment}
    {r : List UInt8 × List Segment} (hr : readBody want buf reads = r)
    (hwhole : buf ++ bytesOf reads = whole) :
    min want r.1.length = min want whole.length ∧
      r.1.take (min want r.1.length) = whole.take (min want r.1.length) ∧
      r.1.drop (min want r.1.length) ++ bytesOf r.2 = whole.drop (min want r.1.length) := by
  have hspec := readBody_spec want buf reads
  rw [hr, hwhole] at hspec
  rcases hspec with ⟨rfl, -, hstop⟩
  refine ⟨?_, (take_append_of_le_length (min_le_right ..)).symm,
    (drop_append_of_le_length (min_le_right ..)).symm⟩
  rw [length_append]
  rcases hstop with hstop | hstop
  · rw [min_eq_left hstop, min_eq_left (hstop.trans (Nat.le_add_right ..))]
  · rw [hstop]
    rfl

/-- What is served once a header is found. -/
theorem serveHttp_found {rd : HeadReader} {stop : Nat} {buf buf' : List UInt8}
    {reads reads' : List Segment} (h : readHeaders buf reads = .found stop buf' reads') :
    serveHttp rd buf reads =
      let want := stop + (rd.contentLength (buf'.take stop)).getD 0
      let r := readBody want buf' reads'
      let bodyEnd := min want r.1.length
      if want > maxRequest then []
      else ⟨rd.requestLine (buf'.take stop), buf'.take stop, (r.1.take bodyEnd).drop stop⟩ ::
        if rd.keepAlive (buf'.take stop) then serveHttp rd (r.1.drop bodyEnd) r.2 else [] := by
  rw [serveHttp]
  split
  · next heq => cases h.symm.trans heq
  · next heq => cases h.symm.trans heq
  · next heq =>
    cases h.symm.trans heq
    rfl

/-- Nothing is served if no header is found. -/
theorem serveHttp_none {rd : HeadReader} {buf : List UInt8} {reads : List Segment}
    (h : ∀ stop buf' reads', readHeaders buf reads ≠ .found stop buf' reads') :
    serveHttp rd buf reads = [] := by
  rw [serveHttp]
  split
  · rfl
  · rfl
  · next heq => exact absurd heq (h _ _ _)

/-- Nothing is served of a stream whose header does not end, or ends behind the limit. -/
theorem serveHttp_refused {rd : HeadReader} {buf : List UInt8}
    (h : ∀ pos, find headerEnd buf = some pos → maxRequest < pos + 4) :
    serveHttp rd buf [] = [] := by
  cases hfind : find headerEnd buf with
  | some pos =>
    rw [serveHttp_found (readHeaders_of_find hfind)]
    exact if_pos ((h pos hfind).trans_le (Nat.le_add_right ..))
  | none =>
    refine serveHttp_none fun stop buf' reads' hfound => ?_
    rw [readHeaders, hfind] at hfound
    simp only at hfound
    split_ifs at hfound

/-- A stream in parts is served as the whole of it. The induction is on the bytes that are
    left, and every request takes some. -/
theorem serveHttp_whole (rd : HeadReader) (buf : List UInt8) (reads : List Segment) :
    serveHttp rd buf reads = serveHttp rd (buf ++ bytesOf reads) [] := by
  generalize hn : buf.length + (bytesOf reads).length = n
  induction n using Nat.strong_induction_on generalizing buf reads with
  | _ n ih =>
    cases h : readHeaders buf reads with
    | ended =>
      have hnone := readHeaders_ended h
      rw [serveHttp_none (by simp [h]), serveHttp_refused (by simp [hnone])]
    | tooLarge =>
      rw [serveHttp_none (by simp [h]), serveHttp_refused fun _ => readHeaders_tooLarge h]
    | found stop buf' reads' =>
      rcases readHeaders_found h with ⟨hbytes, pos, rfl, hpos⟩
      have hfind : find headerEnd (buf ++ bytesOf reads) = some pos := by
        rw [← hbytes]
        exact find_append hpos _
      have hhead : (buf ++ bytesOf reads).take (pos + 4) = buf'.take (pos + 4) := by
        rw [← hbytes]
        exact take_append_of_le_length (find_le hpos)
      rw [serveHttp_found h, serveHttp_found (readHeaders_of_find hfind), hhead]
      have hlen := readBody_length h (Nat.le_add_right (pos + 4)
        ((rd.contentLength (buf'.take (pos + 4))).getD 0))
      generalize pos + 4 + (rd.contentLength (buf'.take (pos + 4))).getD 0 = want at hlen ⊢
      generalize hr : readBody want buf' reads' = r at hlen ⊢
      rcases readBody_whole hr hbytes with ⟨hmin, htake, hdrop⟩
      have hrest := ih _ (hlen.trans_eq hn) _ _ rfl
      rw [hdrop] at hrest
      simp only [readBody_nil, hr]
      rw [← hmin, htake, hrest]

/-- The bytes of a request. -/
def HttpRequest.bytes (r : HttpRequest) : List UInt8 := r.head ++ r.body

/-- The requests of a stream stand one behind the other at its front. -/
theorem serveHttp_prefix (rd : HeadReader) (stream : List UInt8) :
    (serveHttp rd stream []).flatMap HttpRequest.bytes <+: stream := by
  induction hn : stream.length using Nat.strong_induction_on generalizing stream with
  | _ n ih =>
    cases hfind : find headerEnd stream with
    | none =>
      rw [serveHttp_refused (by simp [hfind])]
      exact nil_prefix
    | some pos =>
      have hpos : pos + 4 ≤ stream.length := find_le hfind
      rw [serveHttp_found (readHeaders_of_find hfind)]
      generalize hwant : pos + 4 + (rd.contentLength (stream.take (pos + 4))).getD 0 = want
      simp only [readBody_nil]
      split_ifs
      · exact nil_prefix
      all_goals
        generalize hstop : min want stream.length = stop
        have hle : pos + 4 ≤ stop := by omega
        have hbytes : stream.take (pos + 4) ++ (stream.take stop).drop (pos + 4) =
            stream.take stop := by
          conv_rhs => rw [← take_append_drop (pos + 4) (stream.take stop), take_take,
            min_eq_left hle]
        rw [flatMap_cons, HttpRequest.bytes, hbytes]
      · have hrest := ih _ (by rw [length_drop]; omega) (stream.drop stop) rfl
        conv_rhs => rw [← take_append_drop stop stream]
        exact (prefix_append_right_inj _).mpr hrest
      · rw [flatMap_nil, append_nil]
        exact take_prefix ..

/-! ### The text frontend -/

/-- A request of the text frontend: its bytes in the stream, and the statement in it. -/
structure TextRequest where
  frame : List UInt8
  sql : String

/-- The length of a statement, which stands before it. -/
def sqlLength (input : List UInt8) : Nat := ofLeBytes (input.take 4)

/-- The request at the front of a buffer, and how many bytes it takes, if it is complete. -/
def decodeRequest (input : List UInt8) : Except String (Option (String × Nat)) :=
  if input.length < 4 then .ok none
  else if input.length < 4 + sqlLength input then .ok none
  else do
    let sql ← Reader.fromUTF8 "invalid utf8 request" ((input.take (4 + sqlLength input)).drop 4)
    return some (sql, 4 + sqlLength input)

/-- A request takes bytes that are there. -/
theorem decodeRequest_le {input : List UInt8} {sql : String} {consumed : Nat}
    (h : decodeRequest input = .ok (some (sql, consumed))) :
    0 < consumed ∧ consumed ≤ input.length := by
  rw [decodeRequest] at h
  split_ifs at h with hfour hlen
  · cases h
  · cases h
  cases hsql : Reader.fromUTF8 "invalid utf8 request"
      ((input.take (4 + sqlLength input)).drop 4) with
  | error => rw [hsql] at h; cases h
  | ok s =>
    rw [hsql] at h
    cases h
    exact ⟨Nat.lt_add_right _ (by decide), not_lt.mp hlen⟩

/-- More bytes behind a request, or behind one that is refused, do not change it. -/
theorem decodeRequest_append {input : List UInt8} (h : decodeRequest input ≠ .ok none)
    (more : List UInt8) : decodeRequest (input ++ more) = decodeRequest input := by
  rw [decodeRequest] at h
  split_ifs at h with hfour hlen
  · exact absurd rfl h
  · exact absurd rfl h
  have hlength : sqlLength (input ++ more) = sqlLength input :=
    congrArg ofLeBytes (take_append_of_le_length (not_lt.mp hfour))
  have hle : input.length ≤ (input ++ more).length := by simp
  rw [decodeRequest, decodeRequest, if_neg hfour, if_neg hlen, hlength,
    if_neg fun hlt => hfour (hle.trans_lt hlt), if_neg fun hlt => hlen (hle.trans_lt hlt),
    take_append_of_le_length (not_lt.mp hlen)]

/-- The requests of a connection, until the client leaves. -/
def serveText (trim : String → String) (pending : List UInt8) (reads : List Segment) :
    List TextRequest :=
  match _h : decodeRequest pending with
  | .error _ => []
  | .ok (some (sql, consumed)) =>
    ⟨pending.take consumed, sql⟩ ::
      if trim sql = "exit" ∨ trim sql = "quit" then []
      else serveText trim (pending.drop consumed) reads
  | .ok none =>
    match reads with
    | [] => []
    | s :: reads => serveText trim (pending ++ s.val) reads
termination_by (pending.length + (bytesOf reads).length, reads.length)
decreasing_by
  · have hle := decodeRequest_le (by assumption)
    apply Prod.Lex.left
    rw [length_drop]
    omega
  · have hbytes : (pending ++ s.val).length + (bytesOf reads).length =
        pending.length + (bytesOf (s :: reads)).length := by
      simp [Nat.add_assoc]
    rw [hbytes]
    exact Prod.Lex.right _ (Nat.lt_succ_self _)

/-- What is served once a request is complete. -/
theorem serveText_some {trim : String → String} {pending : List UInt8} {reads : List Segment}
    {sql : String} {consumed : Nat} (h : decodeRequest pending = .ok (some (sql, consumed))) :
    serveText trim pending reads = ⟨pending.take consumed, sql⟩ ::
      if trim sql = "exit" ∨ trim sql = "quit" then []
      else serveText trim (pending.drop consumed) reads := by
  rw [serveText.eq_def]
  split
  · next heq => cases h.symm.trans heq
  · next heq =>
    cases h.symm.trans heq
    rfl
  · next heq => cases h.symm.trans heq

/-- Nothing is served behind a request that is refused. -/
theorem serveText_error {trim : String → String} {pending : List UInt8} {reads : List Segment}
    {err : String} (h : decodeRequest pending = .error err) :
    serveText trim pending reads = [] := by
  rw [serveText.eq_def]
  split
  · rfl
  · next heq => cases h.symm.trans heq
  · next heq => cases h.symm.trans heq

/-- More is read for a request that is not complete. -/
theorem serveText_none {trim : String → String} {pending : List UInt8} {s : Segment}
    {reads : List Segment} (h : decodeRequest pending = .ok none) :
    serveText trim pending (s :: reads) = serveText trim (pending ++ s.val) reads := by
  rw [serveText.eq_def]
  split
  · next heq => cases h.symm.trans heq
  · next heq => cases h.symm.trans heq
  · rfl

/-- A stream in parts is served as the whole of it. -/
theorem serveText_whole (trim : String → String) (pending : List UInt8) (reads : List Segment) :
    serveText trim pending reads = serveText trim (pending ++ bytesOf reads) [] := by
  generalize hn : pending.length + (bytesOf reads).length = n
  induction n using Nat.strong_induction_on generalizing pending reads with
  | _ n ih =>
    induction reads generalizing pending with
    | nil => rw [bytesOf_nil, append_nil]
    | cons s reads ihr =>
      rcases h : decodeRequest pending with err | _ | ⟨sql, consumed⟩
      · have hsome : decodeRequest pending ≠ .ok none := by simp [h]
        have hwhole := decodeRequest_append hsome (bytesOf (s :: reads))
        rw [serveText_error h, serveText_error (hwhole.trans h)]
      · have hlen : (pending ++ s.val).length + (bytesOf reads).length = n := by
          rw [← hn]
          simp [Nat.add_assoc]
        rw [serveText_none h, ihr _ hlen, bytesOf_cons, append_assoc]
      · rcases decodeRequest_le h with ⟨hpos, hle⟩
        have hsome : decodeRequest pending ≠ .ok none := by simp [h]
        have hwhole := decodeRequest_append hsome (bytesOf (s :: reads))
        have hrest := ih _ (by rw [length_drop]; omega) (pending.drop consumed) (s :: reads) rfl
        rw [serveText_some h, serveText_some (hwhole.trans h), hrest,
          take_append_of_le_length hle, drop_append_of_le_length hle]

/-- The requests of a stream stand one behind the other at its front. -/
theorem serveText_prefix (trim : String → String) (stream : List UInt8) :
    (serveText trim stream []).flatMap TextRequest.frame <+: stream := by
  induction hn : stream.length using Nat.strong_induction_on generalizing stream with
  | _ n ih =>
    rcases h : decodeRequest stream with err | _ | ⟨sql, consumed⟩
    · rw [serveText_error h]
      exact nil_prefix
    · rw [serveText]
      split <;> first | exact nil_prefix | next heq => cases h.symm.trans heq
    · rcases decodeRequest_le h with ⟨hpos, hle⟩
      rw [serveText_some h, flatMap_cons]
      conv_rhs => rw [← take_append_drop consumed stream]
      refine (prefix_append_right_inj _).mpr ?_
      split_ifs
      · exact nil_prefix
      · exact ih _ (by rw [length_drop]; omega) _ rfl

/-- Two connections that carry the same bytes carry the same requests, however the bytes
    arrive, and no byte is part of two requests. -/
theorem requests_of_stream (rd : HeadReader) (trim : String → String) {reads reads' : List Segment}
    (h : bytesOf reads = bytesOf reads') :
    serveHttp rd [] reads = serveHttp rd [] reads' ∧
      (serveHttp rd [] reads).flatMap HttpRequest.bytes <+: bytesOf reads ∧
      serveText trim [] reads = serveText trim [] reads' ∧
      (serveText trim [] reads).flatMap TextRequest.frame <+: bytesOf reads := by
  rw [serveHttp_whole rd [] reads, serveHttp_whole rd [] reads', serveText_whole trim [] reads,
    serveText_whole trim [] reads', ← h]
  exact ⟨rfl, serveHttp_prefix rd _, rfl, serveText_prefix trim _⟩

/-- A header of one letter and a body of one, which arrive in two reads or in one. -/
theorem requests_of_stream_cut :
    let rd : HeadReader := ⟨fun _ => ("G", "/"), fun _ => some 1, fun _ => false⟩
    let reads : List Segment := [⟨[71, 13], by decide⟩, ⟨[10, 13, 10, 88], by decide⟩]
    let reads' : List Segment := [⟨[71, 13, 10, 13, 10, 88], by decide⟩]
    serveHttp rd [] reads = [⟨("G", "/"), [71, 13, 10, 13, 10], [88]⟩] ∧
      serveHttp rd [] reads' = [⟨("G", "/"), [71, 13, 10, 13, 10], [88]⟩] ∧
      serveText id [] reads = serveText id [] reads' := by
  intro rd reads reads'
  have hsame : bytesOf reads = bytesOf reads' := rfl
  have hone : serveHttp rd [] reads' = [⟨("G", "/"), [71, 13, 10, 13, 10], [88]⟩] :=
    serveHttp_found (rfl : readHeaders [] reads' = .found 5 [71, 13, 10, 13, 10, 88] [])
  rcases requests_of_stream rd id hsame with ⟨hhttp, -, htext, -⟩
  exact ⟨hhttp.trans hone, hone, htext⟩

end ChibiDb.Net

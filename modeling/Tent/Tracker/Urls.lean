import Tent.Tracker.Announce

/-!
# Tracker URLs

`tracker_client::announce` takes a tracker for a UDP tracker if `udp` stands anywhere in its URL,
and `udp_tracker_client::announce` looks for `udp://`, for the first colon behind it and for the
first slash behind it.  The URL grammar is `UdpForm` and `IsHttp`; what is to come of such URLs is
`UdpHandled` and `AnnouncedByGet`.

For a URL of the form `udp://host:port/path` the marks that are found are those of the grammar
(`UdpForm.parse`).  But a URL that ends behind its port is given up, as no slash is found in it, and
a URL of HTTP trackers in which `udp` stands is not announced to by HTTP.  `scheme_routing_iff` says
that these are the only failures, up to zero bytes in a host, which end its C string.
-/

set_option autoImplicit false

namespace Tent

open Bytes Transition

/-! ### Searching -/

/-- A text of one character stands where the character is. -/
lemma isPrefixOf_drop_iff {c : UInt8} {s : ByteString} {i : ℕ} :
    [c].isPrefixOf (s.drop i) = true ↔ s[i]? = some c := by
  rw [← List.head?_drop]
  cases s.drop i with
  | nil => simp
  | cons x rest =>
    rw [List.isPrefixOf_cons_cons, List.isPrefixOf_nil_left, Bool.and_true, beq_iff_eq,
      List.head?_cons, Option.some.injEq]
    exact eq_comm

/-- A text is found at the front. -/
lemma findText_append (text s : ByteString) : findText text (text ++ s) = some 0 := by
  rw [findText, List.find?_range_eq_some]
  refine ⟨?_, List.mem_range.mpr (Nat.succ_pos _), fun j hj => absurd hj (Nat.not_lt_zero j)⟩
  rw [List.drop_zero, List.isPrefixOf_iff_prefix]
  exact List.prefix_append text s

/-- A character is found where it first comes. -/
lemma findText_append_cons {c : UInt8} {a : ByteString} (hc : c ∉ a) (b : ByteString) :
    findText [c] (a ++ c :: b) = some a.length := by
  rw [findText, List.find?_range_eq_some]
  refine ⟨?_, List.mem_range.mpr ?_, fun j hj => ?_⟩
  · rw [isPrefixOf_drop_iff]
    simp
  · rw [List.length_append]
    omega
  · rw [Bool.not_eq_true', ← Bool.not_eq_true, isPrefixOf_drop_iff, List.getElem?_append_left hj]
    exact fun hget => hc (List.mem_of_getElem? hget)

/-- A character is not found exactly if it is not there. -/
lemma findText_eq_none_iff {c : UInt8} {s : ByteString} : findText [c] s = none ↔ c ∉ s := by
  rw [findText, List.find?_range_eq_none]
  constructor
  · intro h hmem
    obtain ⟨i, hi, hget⟩ := List.getElem_of_mem hmem
    have hnot := h i (by omega)
    rw [isPrefixOf_drop_iff.mpr (by rw [List.getElem?_eq_getElem hi, hget])] at hnot
    cases hnot
  · intro hc i hi
    rw [Bool.not_eq_true', ← Bool.not_eq_true, isPrefixOf_drop_iff]
    exact fun hget => hc (List.mem_of_getElem? hget)

/-! ### Numbers -/

/-- A digit is neither white space nor a sign. -/
lemma isSpace_of_isDigit {x : UInt8} (hx : isDigit x = true) :
    isSpace x = false ∧ x ≠ 45 ∧ x ≠ 43 := by
  rw [isDigit, Bool.and_eq_true, decide_eq_true_eq, decide_eq_true_eq, UInt8.le_iff_toNat_le,
    UInt8.le_iff_toNat_le] at hx
  have hlow : 48 ≤ x.toNat := hx.1
  have hnot : ¬ x ≤ 13 := by
    rw [UInt8.le_iff_toNat_le]
    exact fun h => absurd (hlow.trans h) (by decide)
  refine ⟨?_, ?_, ?_⟩
  · rw [isSpace, decide_eq_false hnot, Bool.and_false, Bool.or_false, beq_eq_false_iff_ne]
    rintro rfl
    exact absurd hlow (by decide)
  · rintro rfl
    exact absurd hlow (by decide)
  · rintro rfl
    exact absurd hlow (by decide)

/-- A string of digits is read as the number that it stands for. -/
lemma stoi_digits {s : ByteString} (hs : s ≠ []) (hdigits : ∀ x ∈ s, isDigit x = true)
    (hvalue : digitsValue s < 2 ^ 31) : stoi s = .ok (digitsValue s) := by
  obtain ⟨x, rest, rfl⟩ := List.exists_cons_of_ne_nil hs
  obtain ⟨hspace, hminus, hplus⟩ := isSpace_of_isDigit (hdigits x List.mem_cons_self)
  have htake : (x :: rest).takeWhile isDigit = x :: rest :=
    List.takeWhile_eq_self_iff.mpr hdigits
  have hrange : ¬ ((digitsValue (x :: rest) : ℤ) < -2 ^ 31 ∨
      2 ^ 31 ≤ (digitsValue (x :: rest) : ℤ)) := by
    omega
  have hdrop : (x :: rest).dropWhile isSpace = x :: rest :=
    List.dropWhile_cons_of_neg (by rw [hspace]; exact Bool.false_ne_true)
  have hhead : ((x :: rest).head? == some 45) = false := by simpa using hminus
  have hhead' : ((x :: rest).head? == some 43) = false := by simpa using hplus
  unfold stoi
  simp only [hdrop, hhead, hhead', Bool.or_false, Bool.false_eq_true, if_false, htake,
    List.isEmpty_cons, if_neg hrange]

/-! ### The grammar -/

/-- The URL is `udp://host:port` with an optional path, which starts with a slash.  In the host is
neither a colon nor a slash, and the port is a decimal number from 1 to 65535. -/
structure UdpForm (url host port path : ByteString) : Prop where
  /-- The parts of the URL. -/
  url_eq : url = ascii ['u', 'd', 'p', ':', '/', '/'] ++ (host ++ 58 :: (port ++ path))
  /-- No colon stands in the host. -/
  colon : 58 ∉ host
  /-- No slash stands in the host. -/
  slash : 47 ∉ host
  /-- The port is not empty. -/
  port_ne_nil : port ≠ []
  /-- The port consists of digits. -/
  port_digits : ∀ x ∈ port, isDigit x = true
  /-- The port is not zero. -/
  one_le_port : 1 ≤ digitsValue port
  /-- The port is a `uint16_t`. -/
  port_le : digitsValue port ≤ 65535
  /-- The path starts with a slash, if there is one. -/
  path_head : path = [] ∨ path.head? = some 47
  /-- The length of the URL is a `size_t`. -/
  length_lt : url.length < 2 ^ 64

/-- `tolower`. -/
def toLower (x : UInt8) : UInt8 := if 65 ≤ x ∧ x ≤ 90 then x + 32 else x

/-- The scheme of the URL, in front of the first colon, is `http` or `https` in letters of either
case. -/
def IsHttp (url : ByteString) : Prop :=
  ∃ scheme rest, url = scheme ++ 58 :: rest ∧
    (scheme.map toLower = ascii ['h', 't', 't', 'p'] ∨
      scheme.map toLower = ascii ['h', 't', 't', 'p', 's'])

/-! ### What is to come of the URLs -/

section Handled

variable (env : TrackerEnv)

/-- The tracker is announced to over UDP: the host is resolved, and for each of its addresses a
connect request is sent to the port, whatever the system calls return. -/
def UdpHandled (url host : ByteString) (port : ℕ) : Prop :=
  ∀ (t : TrackerClient) (tracker : Tracker), tracker.url = url →
    t.announceTo env tracker = .ok { t with
      udp := run (UdpTracker.step env.toUdpEnv) t.udp
        (.resolve host :: (tracker.infos.getD []).flatMap (AddrInfo.labels port)) } ∧
    ∀ info ∈ tracker.infos.getD [], ∀ ep transactionId sent,
      .connect ep transactionId sent ∈ info.labels port →
        info.addr = some ep.sinAddr ∧ ntohs ep.sinPort = port

/-- The tracker is announced to by HTTP: the first that happens is a GET request of its URL with the
parameters behind it, and where nothing is thrown it is among the requests that were made. -/
def AnnouncedByGet (url : ByteString) : Prop :=
  ∀ (t : TrackerClient) (tracker : Tracker), tracker.url = url →
    (tracker.labels env).head? = some (.get (TrackerClient.httpUrl env url)) ∧
    ∀ v, t.announceTo env tracker = .ok v →
      ∃ more, v.requested = t.requested ++ TrackerClient.httpUrl env url :: more

end Handled

/-! ### URLs of UDP trackers -/

namespace UdpForm

variable {env : TrackerEnv} {url host port path : ByteString}

/-- The marks of the grammar are those that are found: without a slash behind the port, none. -/
lemma parse (h : UdpForm url host port path) :
    UdpUrl.parse url = if path = [] then none else some ⟨host, port⟩ := by
  have hrest : url.drop 6 = host ++ 58 :: (port ++ path) := by
    rw [h.url_eq]
    rfl
  have hport : 47 ∉ port := fun hmem => absurd (h.port_digits 47 hmem) (by decide)
  have hcolon : findText (ascii [':']) (host ++ 58 :: (port ++ path)) = some host.length :=
    findText_append_cons h.colon (port ++ path)
  have hfront : 47 ∉ host ++ 58 :: port := by
    rw [List.mem_append, List.mem_cons]
    rintro (hmem | hmem | hmem)
    · exact h.slash hmem
    · exact absurd hmem (by decide)
    · exact hport hmem
  rw [UdpUrl.parse, h.url_eq, findText_append, ← h.url_eq, Option.bind_some]
  dsimp only
  rw [Nat.zero_add, hrest, hcolon, Option.bind_some]
  cases path with
  | nil =>
    have hslash : findText (ascii ['/']) (host ++ 58 :: (port ++ [])) = none := by
      rw [List.append_nil]
      exact findText_eq_none_iff.mpr hfront
    rw [hslash, if_pos rfl, Option.map_none]
  | cons x rest =>
    obtain rfl : x = 47 := by simpa using h.path_head
    have hsplit : host ++ 58 :: (port ++ 47 :: rest) = (host ++ 58 :: port) ++ 47 :: rest := by simp
    have hslash : findText (ascii ['/']) (host ++ 58 :: (port ++ 47 :: rest)) =
        some (host ++ 58 :: port).length := by
      rw [hsplit]
      exact findText_append_cons hfront rest
    have hlength : ((host ++ 58 :: port).length + 2 ^ 64 - host.length - 1) % 2 ^ 64 =
        port.length := by
      have hlt := h.length_lt
      rw [h.url_eq, List.length_append, List.length_append, List.length_cons,
        List.length_append] at hlt
      rw [List.length_append, List.length_cons]
      omega
    have hbehind : (host ++ 58 :: (port ++ 47 :: rest)).drop (host.length + 1) =
        port ++ 47 :: rest := by
      rw [List.drop_append, List.drop_eq_nil_of_le (Nat.le_succ _)]
      simp
    rw [hslash, Option.map_some, hlength, hbehind, List.take_left, List.take_left,
      if_neg (List.cons_ne_nil 47 rest)]

/-- The port is read as the number that it stands for. -/
lemma stoi_port (h : UdpForm url host port path) : stoi port = .ok (digitsValue port) :=
  stoi_digits h.port_ne_nil h.port_digits (lt_of_le_of_lt h.port_le (by decide))

/-- `udp` is found in the URL. -/
lemma routed (h : UdpForm url host port path) :
    (findText (ascii ['u', 'd', 'p']) url).isSome = true := by
  have hsplit : url =
      ascii ['u', 'd', 'p'] ++ (ascii [':', '/', '/'] ++ (host ++ 58 :: (port ++ path))) :=
    h.url_eq
  rw [hsplit, findText_append]
  rfl

end UdpForm

/-- The connect request to an address goes to that address and to the port. -/
lemma AddrInfo.connect_mem_labels {port : ℕ} (hport : port ≤ 65535) {info : AddrInfo}
    {ep : Endpoint} {transactionId : ℕ} {sent : Bool}
    (h : .connect ep transactionId sent ∈ info.labels port) :
    info.addr = some ep.sinAddr ∧ ntohs ep.sinPort = port := by
  have hvalue : toUInt16 port = port := by
    rw [toUInt16]
    omega
  unfold AddrInfo.labels at h
  cases haddr : info.addr with
  | none =>
    rw [haddr] at h
    cases h
  | some addr =>
    rw [haddr] at h
    rcases List.mem_cons.mp h with heq | hmem
    · cases heq
      rw [hvalue]
      exact ⟨rfl, ntohs_ntohs (by omega)⟩
    · split_ifs at hmem
      · obtain ⟨d, -, hd⟩ := List.mem_map.mp hmem
        cases hd
      · cases hmem

/-- A C string is the whole string exactly if no zero byte stands in it. -/
lemma cStr_eq_self_iff {s : ByteString} : cStr s = s ↔ 0 ∉ s := by
  rw [cStr, List.takeWhile_eq_self_iff]
  constructor
  · intro h hmem
    exact absurd (h 0 hmem) (by decide)
  · intro h x hx
    rw [decide_eq_true_eq]
    rintro rfl
    exact h hx

/-- What happens at the tracker of such a URL: without a path nothing, and else the C string of the
host is resolved and a connect request goes to each of its addresses. -/
lemma UdpForm.labels {url host port path : ByteString} (h : UdpForm url host port path)
    (infos : Option (List AddrInfo)) :
    UdpTracker.labels url infos =
      if path = [] then []
      else .resolve (cStr host) ::
        (infos.getD []).flatMap (AddrInfo.labels (digitsValue port)) := by
  unfold UdpTracker.labels
  rw [h.parse]
  split_ifs with hpath
  · rfl
  · dsimp only
    rw [h.stoi_port]
    rfl

/-- A UDP tracker is announced to at its host and port exactly if its URL has a path and no zero
byte stands in the host: without a path nothing is resolved, and a zero byte ends the C string that
is resolved. -/
lemma udpHandled_iff {env : TrackerEnv} {url host port path : ByteString}
    (h : UdpForm url host port path) :
    UdpHandled env url host (digitsValue port) ↔ path ≠ [] ∧ 0 ∉ host := by
  have hlabels : ∀ tracker : Tracker, tracker.url = url →
      tracker.labels env = (UdpTracker.labels url tracker.infos).map .udp := by
    rintro tracker rfl
    rw [Tracker.labels, if_pos h.routed]
  constructor
  · intro hhandled
    obtain ⟨hok, -⟩ := hhandled ⟨.initial [] ⟨0, ⟨0, 0, 0, 0⟩⟩, []⟩
      ⟨url, ⟨0, [], []⟩, ⟨0, [], []⟩, none⟩ rfl
    have hrun := TrackerClient.announceTo_eq_run hok
    rw [hlabels _ rfl, TrackerClient.run_udp, h.labels] at hrun
    have htrace := congrArg (fun t => t.udp.trace) hrun
    split_ifs at htrace with hpath
    · cases htrace
    · refine ⟨hpath, cStr_eq_self_iff.mp ?_⟩
      have hevent : [UdpEvent.resolved host] = [UdpEvent.resolved (cStr host)] := htrace
      exact (UdpEvent.resolved.inj (List.cons.inj hevent).1).symm
  · rintro ⟨hpath, hhost⟩ t tracker hurl
    refine ⟨?_, fun info _ ep transactionId sent hmem =>
      AddrInfo.connect_mem_labels h.port_le hmem⟩
    obtain ⟨v, hv⟩ : ∃ v, t.announceTo env tracker = .ok v := by
      rw [announceTo_ok_iff, Tracker.Harmless, hurl, if_pos h.routed, h.parse, if_neg hpath]
      intro parsed hparsed infos _ info _ _
      rw [← Option.some.inj hparsed, h.stoi_port]
      rfl
    rw [hv, TrackerClient.announceTo_eq_run hv, hlabels tracker hurl, TrackerClient.run_udp,
      h.labels, if_neg hpath, cStr_eq_self_iff.mpr hhost]

/-! ### URLs of HTTP trackers -/

/-- A step forgets no request. -/
lemma TrackerClient.requested_step (env : TrackerEnv) (t : TrackerClient) (label : TrackerLabel) :
    t.requested <+: (t.step env label).requested := by
  cases label with
  | get url => exact List.prefix_append t.requested [url]
  | udp label => exact List.prefix_rfl
  | http resp =>
    change t.requested <+: ((t.handle env resp).toOption.getD t).requested
    unfold handle
    split_ifs
    · cases parsePeers env resp.body t.udp.receivedPeers with
      | error e => exact List.prefix_rfl
      | ok peers => exact List.prefix_rfl
    · exact List.prefix_rfl

/-- A run forgets no request. -/
lemma TrackerClient.requested_run (env : TrackerEnv) (t : TrackerClient)
    (labels : List TrackerLabel) : t.requested <+: (run (step env) t labels).requested := by
  induction labels generalizing t with
  | nil => exact List.prefix_rfl
  | cons label labels ih => exact (requested_step env t label).trans (ih (t.step env label))

/-- A tracker is announced to by HTTP exactly if `udp` does not stand in its URL. -/
lemma announcedByGet_iff {env : TrackerEnv} {url : ByteString} :
    AnnouncedByGet env url ↔ findText (ascii ['u', 'd', 'p']) url = none := by
  constructor
  · intro hget
    by_contra hudp
    have hlabels := (hget ⟨.initial [] ⟨0, ⟨0, 0, 0, 0⟩⟩, []⟩
      ⟨url, ⟨0, [], []⟩, ⟨0, [], []⟩, none⟩ rfl).1
    rw [Tracker.labels, if_pos (Option.isSome_iff_ne_none.mpr hudp), List.head?_map,
      Option.map_eq_some_iff] at hlabels
    obtain ⟨label, -, hlabel⟩ := hlabels
    cases hlabel
  · rintro hudp t tracker rfl
    have hroute : ¬ (findText (ascii ['u', 'd', 'p']) tracker.url).isSome = true := by
      rw [hudp]
      exact Bool.false_ne_true
    obtain ⟨more, hmore⟩ : ∃ more,
        tracker.labels env = .get (TrackerClient.httpUrl env tracker.url) :: more :=
      ⟨_, if_neg hroute⟩
    refine ⟨by rw [hmore]; rfl, fun v hv => ?_⟩
    obtain ⟨more', hrequested⟩ := TrackerClient.requested_run env
      (t.get (TrackerClient.httpUrl env tracker.url)) more
    refine ⟨more', ?_⟩
    rw [TrackerClient.announceTo_eq_run hv, hmore, run_cons]
    refine Eq.trans hrequested.symm ?_
    rw [TrackerClient.get, List.append_assoc]
    rfl

/-! ### Routing and parsing by scheme -/

/-- A tracker URL is routed and parsed by its scheme exactly if it ends in a path and no zero byte
stands in its host, where it is one of UDP trackers, and `udp` stands nowhere in it, where it is one
of HTTP trackers. -/
theorem scheme_routing_iff (env : TrackerEnv) (url : ByteString) :
    ((∀ host port path, UdpForm url host port path →
        UdpHandled env url host (digitsValue port)) ∧
      (IsHttp url → AnnouncedByGet env url)) ↔
    (∀ host port path, UdpForm url host port path → path ≠ [] ∧ 0 ∉ host) ∧
      (IsHttp url → findText (ascii ['u', 'd', 'p']) url = none) := by
  refine and_congr ?_ (forall_congr' fun _ => announcedByGet_iff)
  exact forall_congr' fun host => forall_congr' fun port => forall_congr' fun path =>
    forall_congr' fun h => udpHandled_iff h

/-- A URL of the scheme `udp` that ends behind its port. -/
def pathlessUrl : ByteString := ascii ['u', 'd', 'p', ':', '/', '/', 'h', ':', '8', '0']

/-- A URL of the scheme `http` with the host `udp` and a path. -/
def udpHostUrl : ByteString :=
  ascii ['h', 't', 't', 'p', ':', '/', '/', 'u', 'd', 'p', '/', 'a']

/-- A UDP tracker is given up if its URL ends behind the port, and an HTTP tracker is given up if
`udp` stands in its host. -/
theorem pathless_and_udp_host_given_up :
    ¬ ((∀ host port path, UdpForm pathlessUrl host port path →
          UdpHandled sampleTrackerEnv pathlessUrl host (digitsValue port)) ∧
        (IsHttp pathlessUrl → AnnouncedByGet sampleTrackerEnv pathlessUrl)) ∧
      ¬ ((∀ host port path, UdpForm udpHostUrl host port path →
          UdpHandled sampleTrackerEnv udpHostUrl host (digitsValue port)) ∧
        (IsHttp udpHostUrl → AnnouncedByGet sampleTrackerEnv udpHostUrl)) := by
  constructor
  · rintro ⟨hudp, -⟩
    have hdigits : ∀ x ∈ ascii ['8', '0'], isDigit x = true := List.all_eq_true.mp (by decide)
    have hform : UdpForm pathlessUrl (ascii ['h']) (ascii ['8', '0']) [] :=
      ⟨rfl, by decide, by decide, by decide, hdigits, by decide, by decide, .inl rfl, by decide⟩
    exact ((udpHandled_iff hform).mp (hudp _ _ _ hform)).1 rfl
  · rintro ⟨-, hhttp⟩
    have hscheme : IsHttp udpHostUrl :=
      ⟨ascii ['h', 't', 't', 'p'], ascii ['/', '/', 'u', 'd', 'p', '/', 'a'], rfl, .inl (by decide)⟩
    exact absurd (announcedByGet_iff.mp (hhttp hscheme)) (by decide)

end Tent

import OpenLustre.Studio.Gate

/-! Which requests pass the gate, against who should: what is addressed to a loopback name by the
Studio's own page and holds the token. -/

namespace OpenLustre.Studio.Gate

section Values

/-- The values of every header of a name. -/
def headerValues (headers name : String) : List String :=
  ((Text.lines headers).drop 1).filterMap (headerLine name)

theorem header_eq (headers name : String) :
    header headers name = (headerValues headers name).head? :=
  (List.head?_filterMap ..).symm

/-- What every pair of a cookie line gives a name. -/
def cookiesIn (name line : String) : List String :=
  (splitAll ';' line).filterMap fun pair => assigned name (Text.trim pair)

theorem cookieIn_eq (name line : String) : cookieIn name line = (cookiesIn name line).head? :=
  (List.head?_filterMap ..).symm

def queryValues (query name : String) : List String :=
  (splitAll '&' query).filterMap (assigned name)

theorem queryValue_eq (query name : String) :
    queryValue query name = (queryValues query name).head? :=
  (List.head?_filterMap ..).symm

end Values

section Hosts

/-- A port in decimal notation. -/
def IsPort (cs : List Char) : Prop := ∃ port, Text.readNat cs = some port ∧ port < 2 ^ 16

/-- Nothing, or a colon and a port. -/
def PortSuffix (after : List Char) : Prop := after = [] ∨ ∃ port, after = ':' :: port ∧ IsPort port

/-- A loopback name, with a port or without. -/
def NamesLoopback (host : String) : Prop :=
  ∃ name ∈ loopbackNames, ∃ before after, host.toList = before ++ after ∧
    eqIgnoreAsciiCase (String.ofList before) name ∧ PortSuffix after

/-- What is behind the name a host is taken for. -/
def behindName (host : List Char) : List Char := host.drop (hostName host).length

theorem toNat_toLower (c : Char) :
    c.toLower.toNat = if 65 ≤ c.toNat ∧ c.toNat ≤ 90 then c.toNat + 32 else c.toNat := by
  have hupper : (c.val ≥ 'A'.val ∧ c.val ≤ 'Z'.val) ↔ 65 ≤ c.toNat ∧ c.toNat ≤ 90 :=
    and_congr UInt32.le_iff_toNat_le UInt32.le_iff_toNat_le
  unfold Char.toLower
  split
  case isTrue h =>
    rw [if_pos (hupper.mp h)]
    have hle := (hupper.mp h).2
    change (c.val + 32).toNat = c.val.toNat + 32
    rw [UInt32.toNat_add]
    change c.val.toNat ≤ 90 at hle
    exact Nat.mod_eq_of_lt (by change c.val.toNat + 32 < _; omega)
  case isFalse h => rw [if_neg (hupper.not.mp h)]

/-- Only letters have a lower case. -/
theorem toLower_eq {c d : Char} (h : c.toLower = d) (hd : d.toNat < 97 ∨ 122 < d.toNat) : c = d := by
  have hnat := toNat_toLower c
  rw [h] at hnat
  split at hnat
  · omega
  · exact Char.toNat_inj.mp hnat.symm

theorem map_toLower_eq {cs ds : List Char} (h : cs.map Char.toLower = ds)
    (hd : ∀ d ∈ ds, d.toNat < 97 ∨ 122 < d.toNat) : cs = ds := by
  induction cs generalizing ds with
  | nil => exact h
  | cons c cs ih =>
    cases h
    exact congrArg₂ List.cons (toLower_eq rfl (hd _ List.mem_cons_self))
      (ih rfl fun d hmem => hd d (List.mem_cons_of_mem _ hmem))

theorem ne_of_lowered {cs : List Char} {name : String} {d : Char}
    (h : cs.map Char.toLower = name.toList.map Char.toLower)
    (hd : d.toLower ∉ name.toList.map Char.toLower) : d ∉ cs := by
  intro hmem
  rw [← h] at hd
  exact hd (List.mem_map_of_mem hmem)

variable {before after : List Char}

theorem hostName_plain (hbracket : '[' ∉ before) (hcolon : ':' ∉ before)
    (hafter : after = [] ∨ ∃ port, after = ':' :: port) (hne : before ≠ []) :
    hostName (before ++ after) = before := by
  have hhead : (before ++ after).head? ≠ some '[' := by
    intro h
    rw [List.head?_append_of_ne_nil _ hne] at h
    exact hbracket (List.mem_of_mem_head? h)
  have hall : ∀ c ∈ before, decide (c ≠ ':') = true := fun c hc =>
    decide_eq_true fun heq => hcolon (by rwa [← heq])
  rw [hostName, if_neg hhead, List.takeWhile_append_of_pos hall]
  obtain rfl | ⟨port, rfl⟩ := hafter
  · rw [List.takeWhile_nil, List.append_nil]
  · rw [List.takeWhile_cons_of_neg (by simp), List.append_nil]

theorem hostName_brackets :
    hostName (['[', ':', ':', '1', ']'] ++ after) = ['[', ':', ':', '1', ']'] := by
  simp [hostName]

/-- A host is taken for the loopback name it is. -/
theorem hostName_loopback {name : String} (hname : name ∈ loopbackNames)
    (h : eqIgnoreAsciiCase (String.ofList before) name)
    (hafter : after = [] ∨ ∃ port, after = ':' :: port) : hostName (before ++ after) = before := by
  have hmap : before.map Char.toLower = name.toList.map Char.toLower := by
    simpa [eqIgnoreAsciiCase] using h
  have hne : name.toList.map Char.toLower ≠ [] → before ≠ [] := by
    rintro hne rfl
    exact hne hmap.symm
  simp only [loopbackNames, List.mem_cons, List.not_mem_nil, or_false] at hname
  rcases hname with rfl | rfl | rfl
  case inl =>
    exact hostName_plain (ne_of_lowered hmap (by decide)) (ne_of_lowered hmap (by decide)) hafter
      (hne (by decide))
  case inr.inl =>
    exact hostName_plain (ne_of_lowered hmap (by decide)) (ne_of_lowered hmap (by decide)) hafter
      (hne (by decide))
  case inr.inr =>
    have hbefore : before = ['[', ':', ':', '1', ']'] := map_toLower_eq hmap (by simp)
    rw [hbefore]
    exact hostName_brackets

theorem hostName_append (host : List Char) : hostName host ++ behindName host = host := by
  have hinit : hostName host <+: host := by
    unfold hostName
    split
    · refine ⟨(host.dropWhile (· ≠ ']')).drop 1, ?_⟩
      rw [List.append_assoc, List.take_append_drop, List.takeWhile_append_dropWhile]
    · exact List.takeWhile_prefix _
  exact List.prefix_iff_eq_append.mp hinit

/-- A host names a loopback address when nothing but a port is behind the name it is taken for. -/
theorem namesLoopback_iff (host : String) :
    NamesLoopback host ↔ isLoopbackHost host ∧ PortSuffix (behindName host.toList) := by
  constructor
  · rintro ⟨name, hname, before, after, hcut, heq, hafter⟩
    have hcolon : after = [] ∨ ∃ port, after = ':' :: port :=
      hafter.imp_right fun ⟨port, hport, _⟩ => ⟨port, hport⟩
    have htaken : hostName host.toList = before := by
      rw [hcut]
      exact hostName_loopback hname heq hcolon
    refine ⟨List.any_eq_true.mpr ⟨name, hname, by rwa [htaken]⟩, ?_⟩
    rw [behindName, htaken, hcut, List.drop_left]
    exact hafter
  · rintro ⟨hloopback, hafter⟩
    obtain ⟨name, hname, heq⟩ := List.any_eq_true.mp hloopback
    exact ⟨name, hname, _, _, (hostName_append _).symm, heq, hafter⟩

end Hosts

section Tokens

/-- The differences of two texts of one length add up to none when there is none. -/
theorem differences_eq_zero {xs ys : List UInt8} (hlength : xs.length = ys.length) (acc : UInt8) :
    (xs.zip ys).foldl (fun acc (x, y) => acc ||| (x ^^^ y)) acc = 0 ↔ acc = 0 ∧ xs = ys := by
  induction xs generalizing ys acc with
  | nil => simp [List.length_eq_zero_iff.mp hlength.symm]
  | cons x xs ih =>
    cases ys with
    | nil => cases hlength
    | cons y ys =>
      rw [List.zip_cons_cons, List.foldl_cons, ih (Nat.succ.inj hlength), UInt8.or_eq_zero_iff,
        UInt8.xor_eq_zero_iff, and_assoc, List.cons.injEq]

theorem same_iff (a b : String) : same a b ↔ a = b := by
  rw [same, Bool.and_eq_true, decide_eq_true_eq, beq_iff_eq]
  constructor
  · rintro ⟨hlength, hzero⟩
    exact utf8_injective ((differences_eq_zero hlength 0).mp hzero).2
  · rintro rfl
    exact ⟨rfl, (differences_eq_zero rfl 0).mpr ⟨rfl, rfl⟩⟩

theorem any_same {value : Option String} {token : String} :
    value.any (same · token) ↔ value = some token := by
  simp [Option.any_eq_true, same_iff]

end Tokens

section Entry

variable (access : Access) (r : Request)

/-- Every host the request names is a loopback name. -/
def Addressed (headers : String) : Prop :=
  headerValues headers "host" ≠ [] ∧ ∀ host ∈ headerValues headers "host", NamesLoopback host

/-- Every page the request comes from is the Studio's own. -/
def FromOwnPage (headers : String) : Prop :=
  ∀ origin ∈ headerValues headers "origin", access.isOwnOrigin origin

/-- The token is in a token header or in a cookie of this port. -/
def Presents (headers : String) : Prop :=
  access.token ∈ headerValues headers tokenHeader ∨
    ∃ line ∈ headerValues headers "cookie", access.token ∈ cookiesIn access.cookieName line

/-- The page is asked for with the token in the query. -/
def Links : Prop := Access.isPage r ∧ access.token ∈ queryValues r.query "token"

def NoRepeats (headers : String) : Prop := ∀ name, (headerValues headers name).length ≤ 1

def NoWrongToken (headers : String) : Prop :=
  ∀ token ∈ headerValues headers tokenHeader, token = access.token

/-- What the gate should do with a request: who it lets in and to the page, who it does not refuse,
and what comes to be served. -/
structure Guards : Prop where
  allowed : access.check r = .allow →
    Addressed r.headers ∧ FromOwnPage access r.headers ∧
      (r.path = "/api/health" ∨ Presents access r.headers)
  entered : ∀ cookie, access.check r = .enter cookie →
    Addressed r.headers ∧ FromOwnPage access r.headers ∧ Links access r
  admitted : NoRepeats r.headers → NoWrongToken access r.headers → Addressed r.headers →
    FromOwnPage access r.headers →
    r.path = "/api/health" ∨ Presents access r.headers ∨ Links access r →
    access.check r = .allow ∨ ∃ cookie, access.check r = .enter cookie
  routed : ∀ reads body, handleConnection access reads = .routed r body →
    Addressed r.headers ∧ FromOwnPage access r.headers ∧
      (r.path = "/api/health" ∨ Presents access r.headers)

/-- The link's first token is the one. -/
def LinksFirst : Prop := Access.isPage r ∧ queryValue r.query "token" = some access.token

/-- The header lines that are read are as they should be: the first of each name, the host as far
as it is read, and the first value of a name in a line. -/
structure Passes : Prop where
  host : ∃ host, header r.headers "host" = some host ∧ isLoopbackHost host
  origin : ∀ origin, header r.headers "origin" = some origin → access.isOwnOrigin origin
  token : r.path = "/api/health" ∨ LinksFirst access r ∨ access.presented r = some access.token

/-- What is not read is not as it should be: something behind the host's name, a further host, or a
further origin. -/
def Overlooked : Prop :=
  Passes access r ∧
    ((∃ host, header r.headers "host" = some host ∧ ¬ PortSuffix (behindName host.toList)) ∨
      (∃ host ∈ (headerValues r.headers "host").tail, ¬ NamesLoopback host) ∨
      ∃ origin ∈ (headerValues r.headers "origin").tail, ¬ access.isOwnOrigin origin)

/-- The token is only behind another value of its name, in a line of cookies or a query. -/
structure Shadowed : Prop where
  noRepeats : NoRepeats r.headers
  noWrongToken : NoWrongToken access r.headers
  addressed : Addressed r.headers
  fromOwnPage : FromOwnPage access r.headers
  path : r.path ≠ "/api/health"
  linked : ¬ LinksFirst access r
  presented : access.presented r ≠ some access.token
  behind : (∃ line ∈ headerValues r.headers "cookie",
      access.token ∈ (cookiesIn access.cookieName line).tail) ∨
    Access.isPage r ∧ access.token ∈ (queryValues r.query "token").tail

section Check

variable {access : Access} {r : Request}

theorem linksFirst_iff : LinksFirst access r ↔ Access.link r = some access.token := by
  rw [LinksFirst, Access.link]
  split
  case isTrue h => exact and_iff_right h
  case isFalse h => exact ⟨fun hlink => absurd hlink.1 h, nofun⟩

theorem checkToken_allow (h : access.checkToken r = .allow) :
    r.path = "/api/health" ∨ access.presented r = some access.token := by
  unfold Access.checkToken at h
  split at h
  case isTrue hpath => exact .inl hpath
  split at h
  case isTrue => cases h
  split at h
  case isTrue hpresented => exact .inr (any_same.mp hpresented)
  split at h
  case isTrue => cases h
  split at h <;> cases h

theorem checkToken_enter {cookie : String} (h : access.checkToken r = .enter cookie) :
    LinksFirst access r := by
  unfold Access.checkToken at h
  split at h
  case isTrue => cases h
  split at h
  case isTrue hlink => exact linksFirst_iff.mpr (any_same.mp hlink)
  split at h
  case isTrue => cases h
  split at h
  case isTrue => cases h
  split at h <;> cases h

theorem checkToken_admits
    (h : r.path = "/api/health" ∨ LinksFirst access r ∨ access.presented r = some access.token) :
    access.checkToken r = .allow ∨ ∃ cookie, access.checkToken r = .enter cookie := by
  unfold Access.checkToken
  split
  case isTrue => exact .inl rfl
  case isFalse hpath =>
    split
    case isTrue => exact .inr ⟨_, rfl⟩
    case isFalse hlink =>
      have hpresented := (h.resolve_left hpath).resolve_left fun hfirst =>
        hlink (any_same.mpr (linksFirst_iff.mp hfirst))
      rw [if_pos (any_same.mpr hpresented)]
      exact .inl rfl

/-- A request that is not refused for its host and its origin is tested for the token. -/
theorem check_eq (hhost : ∃ host, header r.headers "host" = some host ∧ isLoopbackHost host)
    (horigin : ∀ origin, header r.headers "origin" = some origin → access.isOwnOrigin origin) :
    access.check r = access.checkToken r := by
  obtain ⟨host, hheader, hloopback⟩ := hhost
  rw [Access.check, if_neg (by simp [hheader, hloopback]), if_neg]
  rw [Option.any_eq_true]
  rintro ⟨origin, hheader, hforeign⟩
  simp [horigin origin hheader] at hforeign

/-- A request that is let in is not refused for its host or its origin. -/
theorem check_let {verdict : Verdict} (h : access.check r = verdict)
    (hlet : ∀ status contentType body, verdict ≠ .deny status contentType body) :
    (∃ host, header r.headers "host" = some host ∧ isLoopbackHost host) ∧
      ∀ origin, header r.headers "origin" = some origin → access.isOwnOrigin origin := by
  unfold Access.check at h
  split at h
  case isTrue => exact absurd h.symm (hlet _ _ _)
  case isFalse hhost =>
    split at h
    case isTrue => exact absurd h.symm (hlet _ _ _)
    case isFalse horigin =>
      rw [Bool.not_eq_true', Bool.not_eq_false, Option.any_eq_true] at hhost
      refine ⟨hhost, fun origin hheader => ?_⟩
      by_contra hforeign
      exact horigin ((Option.any_eq_true ..).mpr ⟨origin, hheader, by simpa using hforeign⟩)

theorem check_allow (h : access.check r = .allow) :
    Passes access r ∧ (r.path = "/api/health" ∨ access.presented r = some access.token) := by
  obtain ⟨hhost, horigin⟩ := check_let h nofun
  have htoken := checkToken_allow ((check_eq hhost horigin).symm.trans h)
  exact ⟨⟨hhost, horigin, htoken.imp_right .inr⟩, htoken⟩

theorem check_enter {cookie : String} (h : access.check r = .enter cookie) :
    Passes access r ∧ LinksFirst access r := by
  obtain ⟨hhost, horigin⟩ := check_let h nofun
  have htoken := checkToken_enter ((check_eq hhost horigin).symm.trans h)
  exact ⟨⟨hhost, horigin, .inr (.inl htoken)⟩, htoken⟩

/-- The gate lets in what passes by what it reads. -/
theorem check_admits :
    (access.check r = .allow ∨ ∃ cookie, access.check r = .enter cookie) ↔ Passes access r := by
  constructor
  · rintro (h | ⟨cookie, h⟩)
    · exact (check_allow h).1
    · exact (check_enter h).1
  · rintro ⟨hhost, horigin, htoken⟩
    rw [check_eq hhost horigin]
    exact checkToken_admits htoken

end Check

section Connections

variable {access : Access} {reads : List Read} {r : Request} {body : List UInt8}

theorem readHeaders_error {buf : List UInt8} {outcome : Outcome}
    (h : readHeaders reads buf = .error outcome) : outcome ≠ .routed r body := by
  fun_induction readHeaders reads buf with
  | case1 | case2 | case3 | case5 =>
    cases h
    exact nofun
  | case4 => cases h
  | case6 bytes reads buf buf' hnone hsmall ih => exact ih h

theorem readBody_error {stop : Nat} {buf : List UInt8} {outcome : Outcome}
    (h : readBody stop reads buf = .error outcome) : outcome ≠ .routed r body := by
  fun_induction readBody stop reads buf with
  | case1 => cases h
  | case2 | case3 | case5 =>
    cases h
    exact nofun
  | case4 => cases h
  | case6 buf hshort bytes reads hsmall ih => exact ih h

/-- Only what the gate lets in is served. -/
theorem handleConnection_routed (h : handleConnection access reads = .routed r body) :
    access.check r = .allow := by
  unfold handleConnection connect at h
  cases hheaders : readHeaders reads [] with
  | error outcome =>
    rw [hheaders] at h
    exact absurd h (readHeaders_error hheaders)
  | ok received =>
    obtain ⟨buf, headersEnd, rest⟩ := received
    simp only [hheaders, bind, Except.bind] at h
    cases hcheck : access.check (requested ((ofUtf8 (buf.take headersEnd)).getD "")) with
    | enter cookie | deny status contentType text =>
      rw [hcheck] at h
      cases h
    | allow =>
      rw [hcheck] at h
      simp only at h
      generalize min _ maxRequestBytes = contentLength at h
      cases hbody : readBody (headersEnd + 4 + contentLength) rest buf with
      | error outcome =>
        rw [hbody] at h
        exact absurd h (readBody_error hbody)
      | ok buf =>
        simp only [hbody, Outcome.routed.injEq] at h
        rw [← h.1]
        exact hcheck

end Connections

section Guard

variable {access : Access} {r : Request}

theorem presents_of_presented (h : access.presented r = some access.token) :
    Presents access r.headers := by
  rw [Access.presented, Option.or_eq_some_iff] at h
  obtain hheader | ⟨-, hcookie⟩ := h
  · rw [header_eq] at hheader
    exact .inl (List.mem_of_mem_head? hheader)
  · obtain ⟨line, hline, hvalue⟩ := Option.bind_eq_some_iff.mp hcookie
    rw [header_eq] at hline
    rw [cookieIn_eq] at hvalue
    exact .inr ⟨line, List.mem_of_mem_head? hline, List.mem_of_mem_head? hvalue⟩

theorem links_of_first (h : LinksFirst access r) : Links access r := by
  obtain ⟨hpage, hfirst⟩ := h
  rw [queryValue_eq] at hfirst
  exact ⟨hpage, List.mem_of_mem_head? hfirst⟩

/-- What is not read is as it should be, unless it is overlooked. -/
theorem Passes.source (h : Passes access r) (hall : ¬ Overlooked access r) :
    Addressed r.headers ∧ FromOwnPage access r.headers := by
  have hpasses := h
  obtain ⟨⟨host, hheader, hloopback⟩, horigin, -⟩ := h
  have hafter : PortSuffix (behindName host.toList) := by
    by_contra hafter
    exact hall ⟨hpasses, .inl ⟨host, hheader, hafter⟩⟩
  rw [header_eq] at hheader
  obtain ⟨hosts, hhosts⟩ := List.head?_eq_some_iff.mp hheader
  constructor
  · refine ⟨by simp [hhosts], fun other hother => ?_⟩
    rw [hhosts, List.mem_cons] at hother
    obtain rfl | hother := hother
    · exact (namesLoopback_iff other).mpr ⟨hloopback, hafter⟩
    · by_contra hbad
      exact hall ⟨hpasses, .inr (.inl ⟨other, by rwa [hhosts], hbad⟩)⟩
  · intro origin hmem
    by_contra hbad
    cases horigins : headerValues r.headers "origin" with
    | nil => rw [horigins] at hmem; cases hmem
    | cons first origins =>
      rw [horigins, List.mem_cons] at hmem
      obtain rfl | hmem := hmem
      · exact hbad (horigin origin (by rw [header_eq, horigins]; rfl))
      · exact hall ⟨hpasses, .inr (.inr ⟨origin, by rwa [horigins], hbad⟩)⟩

theorem mem_tail_of_mem {a : String} {l : List String} (h : a ∈ l) (hhead : l.head? ≠ some a) :
    a ∈ l.tail := by
  cases l with
  | nil => cases h
  | cons b l => exact (List.mem_cons.mp h).resolve_left fun heq => hhead (by rw [heq]; rfl)

theorem head?_of_single {a : String} {l : List String} (h : a ∈ l) (hlength : l.length ≤ 1) :
    l.head? = some a := by
  by_contra hhead
  have htail := List.length_pos_of_mem (mem_tail_of_mem h hhead)
  rw [List.length_tail] at htail
  omega

theorem mem_behind_cookie (hrepeats : NoRepeats r.headers) (hwrong : NoWrongToken access r.headers)
    (h : Presents access r.headers) (hpresented : access.presented r ≠ some access.token) :
    ∃ line ∈ headerValues r.headers "cookie",
      access.token ∈ (cookiesIn access.cookieName line).tail := by
  cases htokens : headerValues r.headers tokenHeader with
  | cons token tokens =>
    have htoken : token = access.token := hwrong token (by rw [htokens]; exact List.mem_cons_self)
    refine absurd ?_ hpresented
    rw [Access.presented, header_eq, htokens, htoken]
    rfl
  | nil =>
    obtain hmem | ⟨line, hline, hmem⟩ := h
    case inl => rw [htokens] at hmem; cases hmem
    case inr =>
      refine ⟨line, hline, mem_tail_of_mem hmem fun hfirst => hpresented ?_⟩
      have hcookie : cookie r.headers access.cookieName = some access.token := by
        rw [cookie, header_eq, head?_of_single hline (hrepeats _), ← hfirst, ← cookieIn_eq]
        rfl
      rw [Access.presented, header_eq, htokens, hcookie]
      rfl

/-- The token is where it is read, unless it is shadowed. -/
theorem passes_of_source (hrepeats : NoRepeats r.headers) (hwrong : NoWrongToken access r.headers)
    (haddressed : Addressed r.headers) (horigin : FromOwnPage access r.headers)
    (htoken : r.path = "/api/health" ∨ Presents access r.headers ∨ Links access r)
    (hall : ¬ Shadowed access r) : Passes access r := by
  constructor
  case host =>
    cases hhosts : headerValues r.headers "host" with
    | nil => exact absurd hhosts haddressed.1
    | cons host hosts =>
      have hnames := haddressed.2 host (by rw [hhosts]; exact List.mem_cons_self)
      exact ⟨host, by rw [header_eq, hhosts]; rfl, ((namesLoopback_iff host).mp hnames).1⟩
  case origin =>
    intro origin hheader
    rw [header_eq] at hheader
    exact horigin origin (List.mem_of_mem_head? hheader)
  case token =>
    by_contra hnone
    obtain ⟨hpath, hlinked, hpresented⟩ := by simpa only [not_or] using hnone
    refine hall ⟨hrepeats, hwrong, haddressed, horigin, hpath, hlinked, hpresented, ?_⟩
    refine (htoken.resolve_left hpath).imp
      (fun h => mem_behind_cookie hrepeats hwrong h hpresented) fun ⟨hpage, hmem⟩ => ⟨hpage, ?_⟩
    refine mem_tail_of_mem hmem fun hfirst => hlinked ⟨hpage, ?_⟩
    rw [queryValue_eq, hfirst]

/-- The gate guards against every request but those of which it overlooks a part or that shadow
their token. -/
theorem guards_iff (access : Access) (r : Request) :
    Guards access r ↔ ¬ Overlooked access r ∧ ¬ Shadowed access r := by
  constructor
  · intro h
    refine ⟨fun hover => ?_, fun hshadow => ?_⟩
    · obtain ⟨hpasses, hbad⟩ := hover
      have hsource : Addressed r.headers ∧ FromOwnPage access r.headers := by
        obtain hallow | ⟨cookie, henter⟩ := check_admits.mpr hpasses
        · exact ⟨(h.allowed hallow).1, (h.allowed hallow).2.1⟩
        · exact ⟨(h.entered cookie henter).1, (h.entered cookie henter).2.1⟩
      obtain ⟨host, hheader, hafter⟩ | ⟨host, hmem, hbad⟩ | ⟨origin, hmem, hbad⟩ := hbad
      · rw [header_eq] at hheader
        exact hafter ((namesLoopback_iff host).mp
          (hsource.1.2 host (List.mem_of_mem_head? hheader))).2
      · exact hbad (hsource.1.2 host (List.mem_of_mem_tail hmem))
      · exact hbad (hsource.2 origin (List.mem_of_mem_tail hmem))
    · have hpasses : Passes access r := by
        refine check_admits.mp (h.admitted hshadow.noRepeats hshadow.noWrongToken hshadow.addressed
          hshadow.fromOwnPage (.inr ?_))
        exact hshadow.behind.imp (fun ⟨line, hline, hmem⟩ =>
          .inr ⟨line, hline, List.mem_of_mem_tail hmem⟩) fun ⟨hpage, hmem⟩ =>
          ⟨hpage, List.mem_of_mem_tail hmem⟩
      exact (hpasses.token.resolve_left hshadow.path).elim hshadow.linked hshadow.presented
  · rintro ⟨hover, hshadow⟩
    have hallowed (h : access.check r = .allow) :
        Addressed r.headers ∧ FromOwnPage access r.headers ∧
          (r.path = "/api/health" ∨ Presents access r.headers) := by
      obtain ⟨hpasses, htoken⟩ := check_allow h
      obtain ⟨haddressed, horigin⟩ := hpasses.source hover
      exact ⟨haddressed, horigin, htoken.imp_right presents_of_presented⟩
    constructor
    case allowed => exact hallowed
    case entered =>
      intro cookie h
      obtain ⟨hpasses, hlinks⟩ := check_enter h
      obtain ⟨haddressed, horigin⟩ := hpasses.source hover
      exact ⟨haddressed, horigin, links_of_first hlinks⟩
    case admitted =>
      intro hrepeats hwrong haddressed horigin htoken
      exact check_admits.mpr
        (passes_of_source hrepeats hwrong haddressed horigin htoken hshadow)
    case routed => exact fun reads body h => hallowed (handleConnection_routed h)

/-- A host that only starts as a loopback name is let in, with the token, to what reads files. -/
theorem not_guards_brackets :
    ¬ Guards { token := "0123456789abcdef", port := 8471, portBound := by decide }
      { method := "GET", path := "/api/inspect", query := "",
        headers := "GET /api/inspect HTTP/1.1\r\nHost: [::1].evil.example\r\n" ++
          "X-OpenLustre-Token: 0123456789abcdef" } := by
  intro h
  have hnames := (h.allowed (by rfl)).1.2 "[::1].evil.example" (by decide)
  obtain hafter | ⟨port, hafter, -⟩ := ((namesLoopback_iff _).mp hnames).2
  · exact absurd hafter (by decide)
  · have hcolon : (behindName "[::1].evil.example".toList).head? = some ':' := by rw [hafter]; rfl
    exact absurd hcolon (by decide)

end Guard

end Entry

end OpenLustre.Studio.Gate

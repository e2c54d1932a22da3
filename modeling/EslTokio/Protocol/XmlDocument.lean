import EslTokio.Protocol.LossySignal
import Mathlib.Data.List.TakeWhile

/-!
# XML event documents

What `parse_xml_event` makes of a document of an event's own shape: `<event>` around `<headers>`,
one element a header, and at most one `<body>`, each text in as many fragments as the reader cuts it
into.

The parser tells elements apart by their name alone, not by their depth.  A header element named
`body` is taken for the body, and one named `headers` ends the headers when it closes.

* `XmlContent`, `XmlElement`, `XmlDocument` — documents, with the pulls they are read as.
* `readElement`, `foldlM_element` — what one header element does to a parser between elements.
* `takenElements` — the header elements that get through.
* **`xmlEvent_exact_iff`** — when the event has exactly the document's headers and body.
-/

namespace EslTokio

open Library

/-- A fragment of text, as the reader cuts it. -/
inductive XmlFragment where
  | text (content : Text)
  | entity (name : Text)

/-- The pull a fragment is read as. -/
def XmlFragment.read : XmlFragment → XmlRead
  | .text content => .text content
  | .entity name => .generalRef name

/-- What a fragment stands for. -/
def XmlFragment.value (xml : XmlLibrary) : XmlFragment → Text
  | .text content => content
  | .entity name =>
      match resolveEntity xml name with
      | .ok resolved => resolved
      | .error _ => []

/-- Non-empty text, in fragments whose entities resolve. -/
structure XmlContent (xml : XmlLibrary) where
  fragments : List XmlFragment
  resolves : ∀ name, .entity name ∈ fragments → ∃ text, resolveEntity xml name = .ok text
  nonempty : fragments.flatMap (·.value xml) ≠ []

/-- The whole text. -/
def XmlContent.value {xml : XmlLibrary} (content : XmlContent xml) : Text :=
  content.fragments.flatMap (·.value xml)

/-- The pulls of white space between elements. -/
def gapReads (gap : List Text) : List XmlRead := gap.map .text

/-- A header element, and the white space after it. -/
structure XmlElement (xml : XmlLibrary) where
  name : Text
  content : XmlContent xml
  gap : List Text

/-- The pulls of an element with the given name. -/
def contentReads {xml : XmlLibrary} (name : Text) (content : XmlContent xml) (gap : List Text) :
    List XmlRead :=
  .opened name :: content.fragments.map XmlFragment.read ++ .closed name :: gapReads gap

/-- An event document, with the white space around its structural tags. -/
structure XmlDocument (xml : XmlLibrary) where
  elements : List (XmlElement xml)
  body : Option (XmlContent xml)
  beforeEvent : List Text
  beforeHeaders : List Text
  afterHeadersOpen : List Text
  afterHeaders : List Text
  afterBody : List Text
  afterEvent : List Text

/-- The pulls of a document. -/
def XmlDocument.reads {xml : XmlLibrary} (d : XmlDocument xml) : List XmlRead :=
  gapReads d.beforeEvent ++ .opened "event".toList :: gapReads d.beforeHeaders ++
    .opened "headers".toList :: gapReads d.afterHeadersOpen ++
    d.elements.flatMap (fun element => contentReads element.name element.content element.gap) ++
    .closed "headers".toList :: gapReads d.afterHeaders ++
    (match d.body with
      | some content => contentReads "body".toList content d.afterBody
      | none => []) ++
    .closed "event".toList :: gapReads d.afterEvent

/-- The text of the last element stored under a key. -/
def lastText {xml : XmlLibrary} (key : Text) (elements : List (XmlElement xml)) : Option Text :=
  (elements.filter fun element => normalizeHeaderKey element.name = key).getLast?.map
    (·.content.value)

/-- The header elements before any named `headers`, less those named `body`. -/
def takenElements {xml : XmlLibrary} (elements : List (XmlElement xml)) : List (XmlElement xml) :=
  (elements.takeWhile fun element => element.name ≠ "headers".toList).filter
    fun element => element.name ≠ "body".toList

/-- The header elements that do not get through leave no trace: none is taken for the body of a
document without one, and each key's last text is the last of those that do. -/
def XmlDocument.Undisturbed {xml : XmlLibrary} (d : XmlDocument xml) : Prop :=
  (d.body = none → ∀ element ∈ d.elements, element.name ≠ "body".toList) ∧
    ∀ key, lastText key d.elements = lastText key (takenElements d.elements)

/-- The event has exactly the document's headers, later ones over earlier ones, and its body. -/
def XmlDocument.ReadExactly {xml : XmlLibrary} (d : XmlDocument xml) (event : EslEvent) : Prop :=
  (∀ key, event.headers.map.get? key = lastText key d.elements) ∧
    event.body = d.body.map (·.value)

/-! ### One element -/

namespace XmlState

/-- Between elements. -/
def idle (event : EslEvent) (inHeaders : Bool) : XmlState := ⟨event, inHeaders, none, false, []⟩

/-- White space between elements is passed over. -/
theorem foldlM_gap (xml : XmlLibrary) (gap : List Text) (event : EslEvent) (inHeaders : Bool) :
    (gapReads gap).foldlM (step xml) (idle event inHeaders) = .ok (idle event inHeaders) := by
  induction gap with
  | nil => rfl
  | cons space gap ih => exact ih

/-- Inside an element the fragments are collected, entities resolved. -/
theorem foldlM_collected {xml : XmlLibrary} {s : XmlState}
    (hinside : (s.inBody || s.currentTag.isSome) = true) (fragments : List XmlFragment)
    (hresolves : ∀ name, .entity name ∈ fragments → ∃ text, resolveEntity xml name = .ok text) :
    (fragments.map XmlFragment.read).foldlM (step xml) s =
      .ok { s with textBuf := s.textBuf ++ fragments.flatMap (·.value xml) } := by
  induction fragments generalizing s with
  | nil =>
      rw [List.flatMap_nil, List.append_nil]
      rfl
  | cons fragment fragments ih =>
      have hlater : ∀ name, .entity name ∈ fragments → ∃ text, resolveEntity xml name = .ok text :=
        fun name hname => hresolves name (List.mem_cons_of_mem _ hname)
      have hstep : step xml s fragment.read =
          .ok { s with textBuf := s.textBuf ++ fragment.value xml } := by
        cases fragment with
        | text content => exact if_pos hinside
        | entity name =>
            obtain ⟨text, htext⟩ := hresolves name List.mem_cons_self
            simp only [XmlFragment.read, step, XmlFragment.value, if_pos hinside, htext]
            rfl
      rw [List.map_cons, List.foldlM_cons, hstep, List.flatMap_cons, ← List.append_assoc]
      exact ih (s := { s with textBuf := s.textBuf ++ fragment.value xml }) hinside hlater

/-- Outside every element the fragments are passed over. -/
theorem foldlM_ignored {xml : XmlLibrary} {s : XmlState}
    (houtside : (s.inBody || s.currentTag.isSome) = false) (fragments : List XmlFragment) :
    (fragments.map XmlFragment.read).foldlM (step xml) s = .ok s := by
  induction fragments with
  | nil => rfl
  | cons fragment fragments ih =>
      have hstep : step xml s fragment.read = .ok s := by
        cases fragment with
        | text content => exact if_neg (by rw [houtside]; exact Bool.false_ne_true)
        | entity name => exact if_neg (by rw [houtside]; exact Bool.false_ne_true)
      rw [List.map_cons, List.foldlM_cons, hstep]
      exact ih

end XmlState

/-- What a header element does: the event, and whether the headers go on. -/
def readElement {xml : XmlLibrary} (read : EslEvent × Bool) (element : XmlElement xml) :
    EslEvent × Bool :=
  if element.name = "headers".toList then (read.1, false)
  else if element.name = "body".toList then (read.1.setBody element.content.value, read.2)
  else if read.2 = true then (read.1.setHeader element.name element.content.value, true)
  else read

namespace XmlState

variable {xml : XmlLibrary}

/-- An element is opened, its fragments read, and closed. -/
theorem foldlM_content {name : Text} {content : XmlContent xml} {gap : List Text}
    {s filled : XmlState} (inside : XmlState) {event : EslEvent} {inHeaders : Bool}
    (hopen : step xml s (.opened name) = .ok inside)
    (hread : (content.fragments.map XmlFragment.read).foldlM (step xml) inside = .ok filled)
    (hclose : step xml filled (.closed name) = .ok (idle event inHeaders)) :
    (contentReads name content gap).foldlM (step xml) s = .ok (idle event inHeaders) := by
  simp only [contentReads, List.cons_append, List.foldlM_cons, List.foldlM_append, hopen, bind,
    Except.bind, hread, hclose, foldlM_gap]

/-- **One element**, from between elements to between elements. -/
theorem foldlM_element (event : EslEvent) (inHeaders : Bool) (element : XmlElement xml) :
    (contentReads element.name element.content element.gap).foldlM (step xml)
        (idle event inHeaders) =
      .ok (idle (readElement (event, inHeaders) element).1
        (readElement (event, inHeaders) element).2) := by
  obtain ⟨name, content, gap⟩ := element
  have hvalue : content.value ≠ [] := content.nonempty
  rw [readElement]
  by_cases hheaders : name = "headers".toList
  · rw [if_pos hheaders]
    exact foldlM_content _ (if_pos hheaders) (foldlM_ignored rfl _) (if_pos hheaders)
  · by_cases hbody : name = "body".toList
    · rw [if_neg hheaders, if_pos hbody]
      refine foldlM_content { idle event inHeaders with inBody := true } ?_
        (foldlM_collected rfl _ content.resolves) ?_
      · rw [step, if_neg hheaders, if_pos hbody]
      · show step xml ⟨event, inHeaders, none, true, content.value⟩ (.closed name) = _
        rw [step, if_neg hheaders, if_pos hbody, closeBody, if_neg hvalue]
        rfl
    · rw [if_neg hheaders, if_neg hbody]
      cases inHeaders with
      | true =>
          rw [if_pos rfl]
          refine foldlM_content { idle event true with currentTag := some name } ?_
            (foldlM_collected rfl _ content.resolves) ?_
          · simp only [step, if_neg hheaders, if_neg hbody]
            rfl
          · show step xml ⟨event, true, some name, false, content.value⟩ (.closed name) = _
            simp only [step, if_neg hheaders, if_neg hbody, closeHeader, if_neg hvalue]
            rfl
      | false =>
          refine foldlM_content (idle event false) ?_ (foldlM_ignored rfl _) ?_
          · rw [step, if_neg hheaders, if_neg hbody]
            rfl
          · rw [step, if_neg hheaders, if_neg hbody]
            rfl

/-- The header elements, one after the other. -/
theorem foldlM_elements (elements : List (XmlElement xml)) (read : EslEvent × Bool) :
    (elements.flatMap fun element =>
        contentReads element.name element.content element.gap).foldlM (step xml)
        (idle read.1 read.2) =
      .ok (idle (elements.foldl readElement read).1 (elements.foldl readElement read).2) := by
  induction elements generalizing read with
  | nil => rfl
  | cons element elements ih =>
      rw [List.flatMap_cons, List.foldlM_append, foldlM_element]
      exact ih (readElement read element)

end XmlState

namespace XmlDocument

variable {xml : XmlLibrary}

/-- The event a document is read as. -/
def event (d : XmlDocument xml) : EslEvent :=
  let read := (d.elements.foldl readElement (EslEvent.new, true)).1
  match d.body with
  | some content => read.setBody content.value
  | none => read

/-- **A whole document**, pull by pull. -/
theorem foldlM_reads (d : XmlDocument xml) :
    d.reads.foldlM (XmlState.step xml) XmlState.new = .ok (XmlState.idle d.event false) := by
  have hevent : ("event".toList : Text) ≠ "headers".toList ∧
      ("event".toList : Text) ≠ "body".toList := by decide
  have hbody : ("body".toList : Text) ≠ "headers".toList := by decide
  have hopened : XmlState.step xml (XmlState.idle EslEvent.new false) (.opened "event".toList) =
      .ok (XmlState.idle EslEvent.new false) := by
    rw [XmlState.step, if_neg hevent.1, if_neg hevent.2]
    rfl
  have hclosed : ∀ event, XmlState.step xml (XmlState.idle event false) (.closed "event".toList) =
      .ok (XmlState.idle event false) := by
    intro event
    rw [XmlState.step, if_neg hevent.1, if_neg hevent.2]
    rfl
  have hheaders : ∀ event inHeaders, XmlState.step xml (XmlState.idle event inHeaders)
      (.opened "headers".toList) = .ok (XmlState.idle event true) ∧
      XmlState.step xml (XmlState.idle event inHeaders) (.closed "headers".toList) =
        .ok (XmlState.idle event false) := by
    intro event inHeaders
    rw [XmlState.step, if_pos rfl, XmlState.step, if_pos rfl]
    exact ⟨rfl, rfl⟩
  have hnew : XmlState.new = XmlState.idle EslEvent.new false := rfl
  have helements := XmlState.foldlM_elements d.elements (EslEvent.new, true)
  simp only [reads, List.foldlM_append, List.foldlM_cons, hnew, XmlState.foldlM_gap, bind,
    Except.bind, hopened, (hheaders _ _).1, (hheaders _ _).2, helements, event]
  cases d.body with
  | none =>
      simp only [List.foldlM_nil, pure, Except.pure, hclosed, XmlState.foldlM_gap]
  | some content =>
      have hread := XmlState.foldlM_element (d.elements.foldl readElement (EslEvent.new, true)).1
        false ⟨"body".toList, content, d.afterBody⟩
      simp only [readElement, if_neg hbody, if_pos] at hread
      simp only [hread, hclosed, XmlState.foldlM_gap]

/-! ### What gets through -/

theorem get?_setHeader (event : EslEvent) (name value key : Text) :
    (event.setHeader name value).headers.map.get? key =
      if normalizeHeaderKey name = key then some value else event.headers.map.get? key := by
  have hinsert := IndexMap.get?_insert event.headers.map (normalizeHeaderKey name) key value
  by_cases hkey : normalizeHeaderKey name = key
  · rw [if_pos hkey]
    rwa [if_pos hkey.symm] at hinsert
  · rw [if_neg hkey]
    rwa [if_neg (Ne.symm hkey)] at hinsert

theorem lastText_cons (key : Text) (element : XmlElement xml) (elements : List (XmlElement xml)) :
    lastText key (element :: elements) = (lastText key elements).or
      (if normalizeHeaderKey element.name = key then some element.content.value else none) := by
  rw [lastText, lastText]
  by_cases hkey : normalizeHeaderKey element.name = key
  · rw [List.filter_cons_of_pos (by exact decide_eq_true hkey), if_pos hkey, List.getLast?_cons]
    cases (elements.filter fun element => normalizeHeaderKey element.name = key).getLast? with
    | none => rfl
    | some last => rfl
  · rw [List.filter_cons_of_neg (by exact fun h => hkey (of_decide_eq_true h)), if_neg hkey,
      Option.or_none]

/-- Once an element named `headers` has closed, no header is stored. -/
theorem headers_foldl_false (elements : List (XmlElement xml)) (event : EslEvent) :
    (elements.foldl readElement (event, false)).1.headers = event.headers := by
  induction elements generalizing event with
  | nil => rfl
  | cons element elements ih =>
      rw [List.foldl_cons, readElement]
      split
      · exact ih event
      · split
        · exact ih (event.setBody element.content.value)
        · exact ih event

/-- **The headers stored are those of the elements that get through.** -/
theorem get?_foldl_readElement (elements : List (XmlElement xml)) (event : EslEvent) (key : Text) :
    (elements.foldl readElement (event, true)).1.headers.map.get? key =
      (lastText key (takenElements elements)).or (event.headers.map.get? key) := by
  induction elements generalizing event with
  | nil => rfl
  | cons element elements ih =>
      rw [List.foldl_cons, readElement, takenElements]
      by_cases hheaders : element.name = "headers".toList
      · rw [if_pos hheaders, headers_foldl_false,
          List.takeWhile_cons_of_neg (by exact fun h => of_decide_eq_true h hheaders)]
        rfl
      · rw [if_neg hheaders, List.takeWhile_cons_of_pos (by exact decide_eq_true hheaders)]
        by_cases hbody : element.name = "body".toList
        · rw [if_pos hbody, List.filter_cons_of_neg (by exact fun h => of_decide_eq_true h hbody)]
          exact ih (event.setBody element.content.value)
        · rw [if_neg hbody, if_pos rfl, List.filter_cons_of_pos (by exact decide_eq_true hbody), ih,
            lastText_cons, get?_setHeader, Option.or_assoc]
          congr 1
          split
          · rfl
          · rfl

/-- The text of the last header element named `body`. -/
def strayBody (elements : List (XmlElement xml)) : Option Text :=
  (elements.filter fun element => element.name = "body".toList).getLast?.map (·.content.value)

/-- **The body left by the header elements** is that of the last one named `body`. -/
theorem body_foldl_readElement (elements : List (XmlElement xml)) (read : EslEvent × Bool) :
    (elements.foldl readElement read).1.body = (strayBody elements).or read.1.body := by
  induction elements generalizing read with
  | nil => rfl
  | cons element elements ih =>
      rw [List.foldl_cons, ih, readElement, strayBody, strayBody]
      by_cases hbody : element.name = "body".toList
      · have hheaders : element.name ≠ "headers".toList := by
          rw [hbody]
          decide
        rw [if_neg hheaders, if_pos hbody, List.filter_cons_of_pos (by exact decide_eq_true hbody),
          List.getLast?_cons]
        cases (elements.filter fun element => element.name = "body".toList).getLast? with
        | none => rfl
        | some last => rfl
      · rw [if_neg hbody, List.filter_cons_of_neg (by exact fun h => hbody (of_decide_eq_true h))]
        split
        · rfl
        · split
          · rfl
          · rfl

theorem strayBody_eq_none {elements : List (XmlElement xml)} :
    strayBody elements = none ↔ ∀ element ∈ elements, element.name ≠ "body".toList := by
  rw [strayBody, Option.map_eq_none_iff, List.getLast?_eq_none_iff, List.filter_eq_nil_iff]
  simp

/-- The event of a document: the headers that get through, and the last body there is. -/
theorem event_spec (d : XmlDocument xml) :
    (∀ key, d.event.headers.map.get? key = lastText key (takenElements d.elements)) ∧
      d.event.body = (d.body.map (·.value)).or (strayBody d.elements) := by
  have hheaders := get?_foldl_readElement d.elements EslEvent.new
  have hbody : (d.elements.foldl readElement (EslEvent.new, true)).1.body =
      strayBody d.elements := by
    rw [body_foldl_readElement]
    exact Option.or_none
  have hstored : ∀ key, (d.elements.foldl readElement (EslEvent.new, true)).1.headers.map.get? key =
      lastText key (takenElements d.elements) := by
    intro key
    rw [hheaders key]
    exact Option.or_none
  unfold event
  cases d.body with
  | none => exact ⟨hstored, hbody⟩
  | some content => exact ⟨hstored, rfl⟩

/-- What the parser returns for a document. -/
theorem parseXmlEvent_document (d : XmlDocument xml) {message : EslMessage} {body : Text}
    (hbody : message.body = some body) (hreads : xml.readEvents body = d.reads) :
    parseXmlEvent xml message =
      .ok (carryLossySignal d.event message.lossyValues message.rawBody) := by
  simp only [parseXmlEvent, hbody, hreads, foldlM_reads, bind, Except.bind]
  rfl

/-- No element takes the name of a structural one: all of them get through. -/
theorem Undisturbed.of_names {d : XmlDocument xml}
    (h : ∀ element ∈ d.elements, element.name ≠ "headers".toList ∧ element.name ≠ "body".toList) :
    d.Undisturbed := by
  refine ⟨fun _ element hmem => (h element hmem).2, ?_⟩
  intro key
  have hopens : (d.elements.takeWhile fun element =>
      element.name ≠ "headers".toList) = d.elements :=
    List.takeWhile_eq_self_iff.mpr fun element hmem => decide_eq_true (h element hmem).1
  rw [takenElements, hopens,
    List.filter_eq_self.mpr fun element hmem => decide_eq_true (h element hmem).2]

end XmlDocument

/-- **An XML event has exactly its document's headers and body if and only if** the header elements
named like the structural ones, and those behind one named `headers`, make no difference. -/
theorem xmlEvent_exact_iff (xml : XmlLibrary) (d : XmlDocument xml) (message : EslMessage)
    (body : Text) (hbody : message.body = some body) (hreads : xml.readEvents body = d.reads) :
    (∃ event, parseXmlEvent xml message = .ok event ∧ d.ReadExactly event) ↔ d.Undisturbed := by
  obtain ⟨hheaders, hevent⟩ := d.event_spec
  obtain ⟨hcarried, hcarriedBody⟩ := carryLossySignal_content d.event message.lossyValues
    message.rawBody
  have hbodies : (d.body.map (·.value)).or (XmlDocument.strayBody d.elements) =
      d.body.map (·.value) ↔
      (d.body = none → ∀ element ∈ d.elements, element.name ≠ "body".toList) := by
    rw [← XmlDocument.strayBody_eq_none]
    cases d.body with
    | none => simp
    | some content => simp
  have hexact : d.ReadExactly (carryLossySignal d.event message.lossyValues message.rawBody) ↔
      d.Undisturbed := by
    rw [XmlDocument.ReadExactly, XmlDocument.Undisturbed, hcarried, hcarriedBody, hevent, hbodies,
      and_comm]
    refine and_congr_right fun _ => forall_congr' fun key => ?_
    rw [hheaders key, eq_comm]
  rw [d.parseXmlEvent_document hbody hreads, ← hexact]
  constructor
  · rintro ⟨event, hok, hread⟩
    rwa [Except.ok.inj hok]
  · intro hread
    exact ⟨_, rfl, hread⟩

/-- A message with the given XML body. -/
def xmlMessage (body : Text) : EslMessage := ⟨.event, IndexMap.empty, some body, none, []⟩

/-- A reader that knows one document, and the `amp` entity. -/
def oneDocument (body : Text) (reads : List XmlRead) : XmlLibrary :=
  ⟨fun text => if text = body then reads else [.failed "unknown document".toList],
    fun _ => .ok none, fun name => if name = "amp".toList then some "&".toList else none⟩

theorem oneDocument_readEvents (body : Text) (reads : List XmlRead) :
    (oneDocument body reads).readEvents body = reads := if_pos rfl

/-- A caller name with an ampersand. -/
def smithBody : Text :=
  "<event><headers>\n <Caller-Name>Smith &amp; Jones</Caller-Name></headers></event>".toList

def smithReads : List XmlRead :=
  [.opened "event".toList, .opened "headers".toList, .text "\n ".toList,
    .opened "Caller-Name".toList, .text "Smith ".toList, .generalRef "amp".toList,
    .text " Jones".toList, .closed "Caller-Name".toList, .closed "headers".toList,
    .closed "event".toList]

def smithDocument : XmlDocument (oneDocument smithBody smithReads) :=
  { elements :=
      [⟨"Caller-Name".toList,
        ⟨[.text "Smith ".toList, .entity "amp".toList, .text " Jones".toList],
          fun name hname => ⟨"&".toList, by
            obtain rfl : name = "amp".toList := by simpa using hname
            decide +kernel⟩,
          by decide +kernel⟩, []⟩]
    body := none
    beforeEvent := []
    beforeHeaders := []
    afterHeadersOpen := ["\n ".toList]
    afterHeaders := []
    afterBody := []
    afterEvent := [] }

theorem xmlEvent_exact_iff_smith :
    ∃ event, parseXmlEvent (oneDocument smithBody smithReads) (xmlMessage smithBody) = .ok event ∧
      smithDocument.ReadExactly event :=
  (xmlEvent_exact_iff _ smithDocument (xmlMessage smithBody) smithBody rfl
    (oneDocument_readEvents _ _)).mpr
    (.of_names fun element hmem => by
      obtain rfl := List.mem_singleton.mp hmem
      constructor
      · decide +kernel
      · decide +kernel)

/-- A header named `body`. -/
def strayBodyText : Text := "<event><headers><body>x</body></headers></event>".toList

def strayBodyReads : List XmlRead :=
  [.opened "event".toList, .opened "headers".toList, .opened "body".toList, .text "x".toList,
    .closed "body".toList, .closed "headers".toList, .closed "event".toList]

def strayBodyDocument : XmlDocument (oneDocument strayBodyText strayBodyReads) :=
  { elements :=
      [⟨"body".toList, ⟨[.text "x".toList], by simp, by decide +kernel⟩, []⟩]
    body := none
    beforeEvent := []
    beforeHeaders := []
    afterHeadersOpen := []
    afterHeaders := []
    afterBody := []
    afterEvent := [] }

/-- The header is lost, and its text is the body of a document that has none. -/
theorem strayBody_not_exact :
    ¬∀ (xml : XmlLibrary) (d : XmlDocument xml) (message : EslMessage) (body : Text),
      message.body = some body → xml.readEvents body = d.reads →
        ∃ event, parseXmlEvent xml message = .ok event ∧ d.ReadExactly event := by
  intro hall
  obtain ⟨event, hevent, -, hbody⟩ :=
    hall _ strayBodyDocument (xmlMessage strayBodyText) strayBodyText rfl
      (oneDocument_readEvents _ _)
  rw [strayBodyDocument.parseXmlEvent_document rfl (oneDocument_readEvents _ _)] at hevent
  rw [← Except.ok.inj hevent, (carryLossySignal_content _ _ _).2] at hbody
  have hstray : strayBodyDocument.event.body = some "x".toList := by decide +kernel
  rw [hstray] at hbody
  cases hbody

end EslTokio

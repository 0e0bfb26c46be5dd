import JobManager.Async.Sequential
import JobManager.NewsDigest.Entities
import JobManager.NewsDigest.Snippet

/-! Reading a feed undoes writing it. -/
namespace JobManager

open Text Regex Async

/-- The texts of one item of a feed, before they are encoded. -/
structure FeedItem where
  title : List UInt16
  link : List UInt16
  description : List UInt16
  deriving DecidableEq, Repr

def element (name : String) (text : List UInt16) : List UInt16 :=
  units ("<" ++ name ++ ">") ++ text ++ units ("</" ++ name ++ ">")

namespace FeedItem

def content (item : FeedItem) : List UInt16 :=
  element "title" (encodeEntities item.title) ++ element "link" (encodeEntities item.link) ++
    element "description" (encodeEntities item.description)

def render (item : FeedItem) : List UInt16 := element "item" item.content

/-- The article that an item is about. -/
def article (item : FeedItem) : FeedArticle :=
  ⟨trimUnits item.title, (plainText item.description).take 200, trimUnits item.link⟩

end FeedItem

/-- `/<item\b/i`. -/
def itemStart : Regex UInt16 := .all [.word (ignoringCase ("<" ++ "item")), .wordEnd isWordUnit]

/-- No item starts in the text. -/
def ItemFree (text : List UInt16) : Prop := itemStart.matchAll text = []

variable {name : String} {s text : List UInt16} {item : FeedItem}

section Elements

theorem element_ne_nil (name : String) (text : List UInt16) : element name text ≠ [] := by
  unfold element
  rw [units_append, units_append]
  simp [show units "<" ≠ [] by decide]

/-- An element is taken up to the first end tag of its name. -/
theorem takes_elementRegex (hopen : Lower ("<" ++ name)) (hclose : Lower ("</" ++ name ++ ">"))
    (htext : clashes (ignoringCase ("</" ++ name ++ ">")) text = true) (s : List UInt16) :
    (elementRegex name).Takes (element name text) [text] s := by
  have htaken : (elementRegex name).Takes (units ("<" ++ name) ++ ([] ++ ([] ++ (units ">" ++
      (text ++ (units ("</" ++ name ++ ">") ++ [])))))) [text] s := by
    have hgt : ∀ t : List UInt16, ∀ u ∈ (units ">" ++ t).head?, u = unit '>' := by
      intro t u hu
      have hfirst : unit '>' = u := by simpa [units, charUnits, unit] using hu
      exact hfirst.symm
    apply Takes.cons (Takes.word (ignoringCase_units hopen) _)
    apply Takes.cons (Takes.wordEnd ?_)
    · apply Takes.cons (Takes.star (by simp) ?_)
      · apply Takes.cons (Takes.word (literal_self (units ">")) _)
        apply Takes.capture_lazyStar htext
        exact Takes.cons (Takes.word (ignoringCase_units hclose) _) (Takes.nil s)
      · intro u hu
        simp [hgt _ u hu]
    · intro u hu
      rw [hgt _ u hu]
      decide
  simpa [element] using htaken

theorem clashes_ignoringCase {word : String} {us : List UInt16}
    (hword : units word = unit '<' :: us) (htext : unit '<' ∉ text) :
    clashes (ignoringCase word) text = true := by
  rw [ignoringCase, hword, List.map_cons]
  apply clashes_of_head
  intro u hu
  rw [decide_eq_false_iff_not]
  intro hlower
  exact htext (eq_lt_of_lowerUnit hlower ▸ hu)

/-- A tag does not begin in an element of another name whose text is encoded. -/
theorem clashes_element {word : String} {us : List UInt16} (hword : units word = unit '<' :: us)
    (htext : unit '<' ∉ text)
    (hopen : clashes (ignoringCase word) (units ("<" ++ name ++ ">")) = true)
    (hclose : clashes (ignoringCase word) (units ("</" ++ name ++ ">")) = true) :
    clashes (ignoringCase word) (element name text) = true := by
  apply clashes_append
  · apply clashes_append hopen
    exact clashes_ignoringCase hword htext
  · exact hclose

theorem stripCdata_eq_self (htext : unit '<' ∉ text) : stripCdata text = text := by
  unfold stripCdata
  split
  · next group groups hexec =>
    exfalso
    obtain ⟨pre, rest, htext', -, hword⟩ := greedily_sound hexec
    obtain ⟨cs, rest', hrest, hcs, -⟩ := run_word_sound hword
    apply htext
    rw [htext', hrest, eq_of_literal hcs]
    exact List.mem_append_right _ (List.mem_append_left _ (by decide))
  · rfl

/-- The tag of an element that the text begins with. -/
theorem extractTag_element (hopen : Lower ("<" ++ name)) (hclose : Lower ("</" ++ name ++ ">"))
    (htext : clashes (ignoringCase ("</" ++ name ++ ">")) (encodeEntities text) = true)
    (s : List UInt16) :
    extractTag (element name (encodeEntities text) ++ s) (elementRegex name) = trimUnits text := by
  have hfind : (elementRegex name).find (element name (encodeEntities text) ++ s) =
      some ⟨element name (encodeEntities text), [encodeEntities text]⟩ := by
    rw [find, matchAll_of_some (takes_elementRegex hopen hclose htext s).matchStart]
    · rfl
    · exact element_ne_nil name _
  rw [extractTag, hfind]
  dsimp only
  rw [stripCdata_eq_self (lt_not_mem_encodeEntities text), trimUnits_encodeEntities,
    ← List.append_nil (encodeEntities _), decodeEntities_encodeEntities]
  exact List.append_nil _

end Elements

namespace FeedItem

theorem extractTag_title (item : FeedItem) :
    extractTag item.content titleRegex = trimUnits item.title := by
  rw [content, List.append_assoc]
  apply extractTag_element
  · rfl
  · rfl
  · exact clashes_ignoringCase rfl (lt_not_mem_encodeEntities _)

theorem extractTag_link (item : FeedItem) :
    extractTag item.content linkRegex = trimUnits item.link := by
  have htitle : clashes (ignoringCase ("<" ++ "link"))
      (element "title" (encodeEntities item.title)) = true :=
    clashes_element rfl (lt_not_mem_encodeEntities _) (by decide) (by decide)
  rw [content, List.append_assoc, extractTag, linkRegex, elementRegex,
    find_append_of_clashes _ htitle]
  apply extractTag_element
  · rfl
  · rfl
  · exact clashes_ignoringCase rfl (lt_not_mem_encodeEntities _)

theorem extractTag_description (item : FeedItem) :
    extractTag item.content descriptionRegex = trimUnits item.description := by
  have hbefore : clashes (ignoringCase ("<" ++ "description"))
      (element "title" (encodeEntities item.title) ++ element "link" (encodeEntities item.link)) =
        true := by
    apply clashes_append
    · exact clashes_element rfl (lt_not_mem_encodeEntities _) (by decide) (by decide)
    · exact clashes_element rfl (lt_not_mem_encodeEntities _) (by decide) (by decide)
  rw [content, extractTag, descriptionRegex, elementRegex, find_append_of_clashes _ hbefore,
    ← List.append_nil (element "description" _)]
  apply extractTag_element
  · rfl
  · rfl
  · exact clashes_ignoringCase rfl (lt_not_mem_encodeEntities _)

/-- The three elements of an item contain no end of an item. -/
theorem clashes_content (item : FeedItem) :
    clashes (ignoringCase ("</" ++ "item" ++ ">")) item.content = true := by
  apply clashes_append
  · apply clashes_append
    · exact clashes_element rfl (lt_not_mem_encodeEntities _) (by decide) (by decide)
    · exact clashes_element rfl (lt_not_mem_encodeEntities _) (by decide) (by decide)
  · exact clashes_element rfl (lt_not_mem_encodeEntities _) (by decide) (by decide)

theorem matchStart_render (item : FeedItem) (s : List UInt16) :
    itemRegex.matchStart (item.render ++ s) = some ⟨item.render, [item.content]⟩ := by
  apply Takes.matchStart
  apply takes_elementRegex
  · rfl
  · rfl
  · exact item.clashes_content

end FeedItem

/-- The matches in the part of a feed that holds the items. -/
theorem matchAll_items (items : List FeedItem) :
    itemRegex.matchAll (items.flatMap FeedItem.render) =
      items.map fun item => ⟨item.render, [item.content]⟩ := by
  induction items with
  | nil => rfl
  | cons item items ih =>
    rw [List.flatMap_cons, matchAll_of_some (item.matchStart_render _) (element_ne_nil _ _), ih]
    rfl

theorem head_items (items : List FeedItem) :
    ∀ u ∈ (items.flatMap FeedItem.render).head?, u = unit '<' := by
  intro u hu
  cases items with
  | nil => cases hu
  | cons item items =>
    have hfirst : (FeedItem.render item ++ items.flatMap FeedItem.render).head? =
        some (unit '<') := by
      simp only [FeedItem.render, element, units_append, List.append_assoc]
      rfl
    rw [List.flatMap_cons, hfirst] at hu
    exact (Option.some.inj hu).symm

/-- The name of a start tag does not continue into the next tag. -/
theorem not_forall₂_item {t : List UInt16} (hs : s ≠ [])
    (h : List.Forall₂ (fun p u => p u = true) (ignoringCase ("<" ++ "item"))
      (s ++ unit '<' :: t)) : False := by
  have hrest := List.forall₂_drop_append _ _ _ h
  cases s with
  | nil => exact hs rfl
  | cons u s =>
    have hletters : ((ignoringCase ("<" ++ "item")).drop 1).all (fun p => !p (unit '<')) =
        true := by
      decide +kernel
    rw [List.length_cons, Nat.add_comm, ← List.drop_drop] at hrest
    generalize hps : ((ignoringCase ("<" ++ "item")).drop 1).drop s.length = ps at hrest
    cases hrest with
    | cons hp _ =>
      have hmem := List.mem_of_mem_drop (hps ▸ List.mem_cons_self)
      have hother := List.all_eq_true.mp hletters _ hmem
      rw [hp] at hother
      cases hother

/-- An item that begins before the items begins where none may. -/
theorem matchStart_channel {channel : List UInt16} (hchannel : ItemFree channel)
    (items : List FeedItem) (hs : s ≠ []) (hsuffix : s <:+ channel) :
    itemRegex.matchStart (s ++ items.flatMap FeedItem.render) = none := by
  cases hmatch : itemRegex.matchStart (s ++ items.flatMap FeedItem.render) with
  | none => rfl
  | some m =>
    exfalso
    obtain ⟨cs, rest, htext, hcs, hend⟩ := run_word_sound hmatch
    obtain ⟨s', rfl, rfl⟩ : ∃ s', s = cs ++ s' ∧ rest = s' ++ items.flatMap FeedItem.render := by
      rcases List.append_eq_append_iff.mp htext with ⟨c, rfl, hitems⟩ | ⟨s', rfl, rfl⟩
      · cases c with
        | nil => exact ⟨[], by simp, by simpa using hitems.symm⟩
        | cons u c =>
          have hlt := head_items items u (by rw [hitems]; rfl)
          exact (not_forall₂_item hs (hlt ▸ hcs)).elim
      · exact ⟨s', rfl, rfl⟩
    have hword : ∀ u ∈ s'.head?, isWordUnit u = false := by
      rw [List.foldr_cons, run, run] at hend
      split at hend
      · cases hend
      · next hboundary =>
        cases s' with
        | nil => simp
        | cons u s' => simpa using hboundary
    have hstart : itemStart.Takes (cs ++ ([] ++ [])) ([] ++ ([] ++ [])) s' :=
      Takes.cons (Takes.word hcs _) (Takes.cons (Takes.wordEnd hword) (Takes.nil s'))
    have hfound := hstart.matchStart
    rw [List.append_nil, List.append_nil, matchStart_of_matchAll_nil hchannel hs hsuffix] at hfound
    cases hfound

open HttpNewsSource

/-- The loop over the items of a feed that was written so. -/
theorem readItems_items (maxArticles : ℕ) (items : List FeedItem) (articles : List FeedArticle) :
    (readItems maxArticles (items.map fun item => ⟨item.render, [item.content]⟩) articles).take
        maxArticles =
      (articles ++ (items.filter fun item => trimUnits item.title ≠ []).map FeedItem.article).take
        maxArticles := by
  induction items generalizing articles with
  | nil => simp [readItems]
  | cons item items ih =>
    rw [List.map_cons, readItems]
    split
    · next hfull => rw [List.take_append_of_le_length hfull]
    · dsimp only
      rw [List.headD_cons, item.extractTag_title]
      split
      · next hblank =>
        rw [List.length_eq_zero_iff] at hblank
        rw [ih, List.filter_cons_of_neg (by simpa using hblank)]
      · next htitle =>
        rw [List.length_eq_zero_iff] at htitle
        rw [item.extractTag_link, item.extractTag_description, stripTags_trimUnits, stripTags_eq,
          ih, List.filter_cons_of_pos (by simpa using htitle), List.append_assoc]
        rfl

theorem noTag_readItems {maxArticles : ℕ} {matched : List (Match UInt16)}
    {articles : List FeedArticle} (h : ∀ article ∈ articles, NoTag article.snippet) :
    ∀ article ∈ readItems maxArticles matched articles, NoTag article.snippet := by
  induction matched generalizing articles with
  | nil => exact h
  | cons m matched ih =>
    unfold readItems
    split
    · exact h
    · dsimp only
      split
      · exact ih h
      · apply ih
        intro article hmem
        rcases List.mem_append.mp hmem with hmem | hmem
        · exact h article hmem
        · rw [List.mem_singleton.mp hmem]
          exact List.Pairwise.sublist (List.take_sublist _ _) (noTag_stripTags _)

/-- Whatever the feed is, no snippet has a tag left. -/
theorem noTag_readFeed (source : HttpNewsSource) (xml : List UInt16) :
    ∀ article ∈ source.readFeed xml, NoTag article.snippet := by
  intro article hmem
  apply noTag_readItems _ article (List.mem_of_mem_take hmem)
  simp

theorem readFeed_items (source : HttpNewsSource) {channel : List UInt16}
    (hchannel : ItemFree channel) (items : List FeedItem) :
    source.readFeed (channel ++ items.flatMap FeedItem.render) =
      ((items.filter fun item => trimUnits item.title ≠ []).map FeedItem.article).take
        source.maxArticles := by
  rw [readFeed, matchAll_append fun s => matchStart_channel hchannel items, matchAll_items,
    readItems_items, List.nil_append]

/-- A feed written from articles is read back as these articles. -/
theorem fetchTodayArticles_items {S : Type} {act : (c : FeedCall) → S → Except Thrown c.Answer × S}
    {s : S} {source : HttpNewsSource} {res : FetchResponse} {channel : List UInt16}
    (items : List FeedItem) (hchannel : ItemFree channel)
    (hfetch : (act (.fetch source.feedUrl) s).1 = .ok res) (hok : res.ok = true)
    (htext : (act .text (act (.fetch source.feedUrl) s).2).1 =
      .ok (channel ++ items.flatMap FeedItem.render)) :
    ∃ articles, (eval act source.fetchTodayArticles s).1 = .ok articles ∧
      articles = ((items.filter fun item => trimUnits item.title ≠ []).map FeedItem.article).take
        source.maxArticles ∧
      ∀ article ∈ articles, NoTag article.snippet := by
  refine ⟨source.readFeed (channel ++ items.flatMap FeedItem.render), ?_,
    readFeed_items source hchannel items, noTag_readFeed source _⟩
  rw [fetchTodayArticles, eval_bind, eval_perform]
  cases hanswer : act (.fetch source.feedUrl) s with | mk answer s' =>
  rw [hanswer] at hfetch htext
  cases hfetch
  simp only [hok, Bool.not_true, Bool.false_eq_true, if_false, eval_bind, eval_perform]
  cases hbody : act .text s' with | mk body s'' =>
  rw [hbody] at htext
  cases htext
  rfl

/-- A network that has one feed. -/
def feedNetwork (feed : List UInt16) : (c : FeedCall) → Unit → Except Thrown c.Answer × Unit
  | .fetch _, s => (.ok ⟨true, 200⟩, s)
  | .text, s => (.ok feed, s)

theorem fetchTodayArticles_items_second :
    let items : List FeedItem := [⟨units " ", units "/0", units "no title"⟩,
      ⟨units " &lt; or <item> ", units "/1", units "<p>a\n <b>b</b>"⟩,
      ⟨units "one too many", units "/2", units ""⟩]
    ∃ articles, (eval (feedNetwork (units "<rss><items/>" ++ items.flatMap FeedItem.render))
        (fetchTodayArticles ⟨"/rss", 1⟩) ()).1 = .ok articles ∧
      articles = [⟨units "&lt; or <item>", units "a b", units "/1"⟩] ∧
      ∀ article ∈ articles, NoTag article.snippet := by
  intro items
  obtain ⟨articles, heval, rfl, htags⟩ := @fetchTodayArticles_items Unit (feedNetwork _) ()
    ⟨"/rss", 1⟩ ⟨true, 200⟩ (units "<rss><items/>") items (by rfl) rfl rfl rfl
  exact ⟨_, heval, by decide, htags⟩

end JobManager

/-! Texts in order, by the codes of their characters. -/

namespace SmallLisp.Text

def sort (texts : List String) : List String := texts.mergeSort fun s t => !decide (t < s)

end SmallLisp.Text

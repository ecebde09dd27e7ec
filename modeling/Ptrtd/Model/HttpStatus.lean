import Ptrtd.Model.Config
import Ptrtd.Model.TcbMem

/-! # The status report (`http_status.c`)

The pages that `write_status_report` writes to the clients that `accept` yields, one after the
other. A page is what stands in its table and below it; the text around it is fixed. The tree of
blocks is walked with `rb_first` and `rb_next`, and the walk begins before the first client. -/

namespace Ptrtd.Table

end Ptrtd.Table
